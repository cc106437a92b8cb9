import Recovery.RetouchMasking

/-!
A word that reaches into the list. It ends in the first three bytes of the list, which the loop has
already read.
-/
namespace Recovery.RetouchOverlap
open Memory Retouch RetouchMasking List Option

/-! ## Walking along the list -/

/-- How the loop ends, and where, told by the list alone. -/
def walk (list : Bytes) (bOffs rOffs : Int) : Nat → Int → Int → Nat → Option (Bool × Int)
  | 0, _, _, _ => none
  | fuel + 1, ptr, offsPrev, contPrev =>
    if ptr < rOffs then
      match entryAt list ptr offsPrev contPrev with
      | none => none
      | some e =>
        if Rejected bOffs e then some (false, ptr + e.size)
        else walk list bOffs rOffs fuel (ptr + e.size) e.offset e.original
    else some (true, ptr)

def Reaches (bOffs : Int) (e : Entry) : Prop := ¬ Apart bOffs e
instance (bOffs : Int) (e : Entry) : Decidable (Reaches bOffs e) := inferInstanceAs (Decidable (¬ (_ ∨ _)))
def lastReaching (bOffs : Int) (es : List Entry) : Option Entry := (es.filter (Reaches bOffs ·)).getLast?
def firstByte (d bOffs : Int) (es : List Entry) (before : Option UInt8) : Option UInt8 :=
  match lastReaching bOffs es with
  | none => before
  | some e => (leBytes 4 (unsigned 32 (e.original + d)))[(bOffs - e.offset).toNat]?

/-- The places where an entry can be: the first one comes after offset 0. -/
def Placed (bOffs ptr offsPrev : Int) : Prop := (ptr = bOffs ∧ offsPrev = 0) ∨ bOffs + 2 ≤ ptr

theorem inferred_eq (d : Int) (e : Entry) : inferred d e = wrap 32 d := by
  have nonneg : 0 ≤ (e.original + d) % 2 ^ 32 := Int.emod_nonneg _ (by decide)
  unfold inferred wrap unsigned
  rw [Int.toNat_of_nonneg nonneg]
  have cancel := Int.emod_sub_bmod (y := (e.original : Int)) (e.original + d) (2 ^ 32)
  rwa [show (e.original : Int) + d - e.original = d by omega] at cancel

section Lists
variable {list : Bytes} {bOffs rOffs pOffs ptr offsPrev : Int} {contPrev : Nat} {e : Entry}

theorem entryAt_size (found : entryAt list ptr offsPrev contPrev = some e) :
    e.size = 2 ∨ e.size = 3 ∨ e.size = 8 := by
  simp only [entryAt,bind_eq_bind,bind_eq_some_iff] at found
  obtain ⟨first,-,input,-,equal⟩ := found
  cases equal
  simp only [entrySize]
  split_ifs <;> simp
private theorem entryAt_short (found : entryAt list ptr 0 contPrev = some e) (short : e.size = 2) : e.offset ≤ 16 := by
  simp only [entryAt,bind_eq_bind,bind_eq_some_iff] at found
  obtain ⟨first,-,input,read,equal⟩ := found
  have length : input.length = 2 := by
    cases equal
    exact (slice_some read).2.2.2.trans short
  cases equal
  simp only [decodeBytes,length,↓reduceIte,Int.zero_add]
  have mask : (input.getD 0 0).toNat &&& 0x60 ≤ 0x60 := Nat.and_le_right
  rw [wrap_small (by omega) (by omega)]
  omega
private theorem entry_behind (high : 17 < bOffs) (placed : Placed bOffs ptr offsPrev)
    (found : entryAt list ptr offsPrev contPrev = some e) (accepted : ¬ Rejected bOffs e) :
    Apart (ptr + e.size) e ∧ Placed bOffs (ptr + e.size) e.offset := by
  have size := entryAt_size found
  unfold Rejected at accepted
  refine ⟨.inr ?_,.inr ?_⟩
  · rcases placed with ⟨rfl,rfl⟩ | later
    · by_cases short : e.size = 2
      · have := entryAt_short found short
        omega
      · omega
    · omega
  · rcases placed with ⟨rfl,rfl⟩ | later <;> omega

theorem reaches_iff : Reaches bOffs e ↔ e.offset ≠ -1 ∧ bOffs < e.offset + 4 := by
  unfold Reaches Apart
  omega
private theorem firstByte_cons (d : Int) (e : Entry) (es : List Entry) (before : Option UInt8) :
    firstByte d bOffs (e :: es) before = firstByte d bOffs es
      (if Reaches bOffs e then (leBytes 4 (unsigned 32 (e.original + d)))[(bOffs - e.offset).toNat]? else before) := by
  unfold firstByte lastReaching
  by_cases reaches : Reaches bOffs e
  · rw [filter_cons_of_pos (by simpa using reaches),getLast?_cons]
    cases (es.filter (Reaches bOffs ·)).getLast? with
    | none => simp [reaches]
    | some last => rfl
  · rw [filter_cons_of_neg (by simpa using reaches)]
    cases (es.filter (Reaches bOffs ·)).getLast? with
    | none => simp [reaches]
    | some last => rfl
private theorem written_first {a r : Bytes} {d : Int} (accepted : ¬ Rejected bOffs e) (inside : 0 ≤ bOffs) (before : bOffs < pOffs)
    (done : setSlice a (target pOffs e) (leBytes 4 (unsigned 32 (e.original + d))) = some r) :
    r[bOffs.toNat]? = if Reaches bOffs e then (leBytes 4 (unsigned 32 (e.original + d)))[(bOffs - e.offset).toNat]?
      else a[bOffs.toNat]? := by
  rw [setSlice_at done,leBytes_length]
  unfold Rejected at accepted
  unfold target
  by_cases reaches : Reaches bOffs e
  · obtain ⟨other,near⟩ := reaches_iff.mp reaches
    rw [if_pos reaches,if_neg other,if_pos (by omega)]
    rw [show bOffs.toNat - e.offset.toNat = (bOffs - e.offset).toNat by omega]
  · have far := mt reaches_iff.mpr reaches
    rw [if_neg reaches,if_neg (by split <;> omega)]

end Lists

/-! ## Runs -/

section Runs
variable {list : Bytes} {bOffs rOffs pOffs : Int}

private theorem word_inside {e : Entry} {a : Bytes} (data : Bytes) {ptr : Int} (room : pOffs + 8 ≤ a.length) (start : 0 ≤ pOffs)
    (accepted : ¬ Rejected bOffs e) (behind : Apart ptr e) (high : ptr ≤ pOffs) (width : data.length = 4) :
    ∃ r, setSlice a (target pOffs e) data = some r := by
  unfold Rejected at accepted
  unfold Apart at behind
  refine ⟨_,if_pos ?_⟩
  unfold target
  split <;> omega

private theorem maskLoop_walk (d : Int) (room : pOffs + 8 ≤ list.length) (gap : rOffs + 12 = pOffs) (high : 17 < bOffs)
    (below : bOffs ≤ rOffs) (fuel : Nat) (st : MaskState) (same : SameList st.ptr pOffs list st.binary)
    (placed : Placed bOffs st.ptr st.offsPrev) (fine : st.mismatch = false)
    (agreed : st.offsetSet = true → st.candidate = wrap 32 d) :
    (walk list bOffs rOffs fuel st.ptr st.offsPrev st.contPrev = none →
      maskLoop (some d) bOffs pOffs rOffs fuel st = none) ∧
    ∀ good p, walk list bOffs rOffs fuel st.ptr st.offsPrev st.contPrev = some (good, p) →
      ∃ last, maskLoop (some d) bOffs pOffs rOffs fuel st = some (good, last) ∧ last.ptr = p ∧ last.mismatch = false ∧
        SameList p pOffs list last.binary ∧ last.binary[bOffs.toNat]? = firstByte d bOffs
          (entriesFrom list bOffs rOffs fuel st.ptr st.offsPrev st.contPrev) st.binary[bOffs.toNat]? := by
  induction fuel generalizing st with
  | zero => exact ⟨fun _ => rfl,fun _ _ walked => by cases walked⟩
  | succ fuel ih =>
    rw [walk,maskLoop,entriesFrom]
    by_cases more : st.ptr < rOffs
    swap
    · rw [if_neg more,if_neg more,if_neg more]
      refine ⟨fun none => (by cases none),fun good p walked => ?_⟩
      cases walked
      exact ⟨st,rfl,rfl,fine,same,rfl⟩
    rw [if_pos more,if_pos more,if_pos more]
    have read := entryAt_congr same (Int.le_refl _) (by omega) st.offsPrev st.contPrev
    cases found : entryAt list st.ptr st.offsPrev st.contPrev with
    | none =>
      refine ⟨fun _ => ?_,fun _ _ walked => by cases walked⟩
      rw [maskStep_none (read.symm.trans found)]
      rfl
    | some e =>
      have size := entryAt_size found
      dsimp only
      by_cases rejected : Rejected bOffs e
      · rw [if_pos rejected,if_pos rejected,maskStep_rejected (read.symm.trans found) rejected]
        refine ⟨fun none => (by cases none),fun good p walked => ?_⟩
        cases walked
        exact ⟨_,rfl,rfl,fine,same.later (by omega),rfl⟩
      rw [if_neg rejected,if_neg rejected,maskStep_written (read.symm.trans found) rejected]
      obtain ⟨behind,next⟩ := entry_behind high placed found rejected
      obtain ⟨binary,written⟩ := word_inside (leBytes 4 (unsigned 32 (e.original + d)))
        (show pOffs + 8 ≤ st.binary.length by rw [← same.length]; exact room) (by omega) rejected behind (by omega) (by simp)
      rw [written]
      have kept : SameList (st.ptr + e.size) pOffs list binary :=
        (same.later (by omega)).trans (setSlice_sameList behind (by simp) written)
      have again := ih (advance d e st binary) kept next ?_ ?_
      · rw [firstByte_cons,← written_first rejected (by omega) (by omega) written]
        exact again
      · simp only [advance,inferred_eq,fine]
        split
        · rename_i set
          simp [agreed set]
        · rfl
      · intro _
        simp only [advance,inferred_eq]
        split
        · exact agreed ‹_›
        · rfl

end Runs

/-! ## Whole binaries -/

variable {bOffs rOffs : Int}

theorem entriesFrom_accepted {list : Bytes} (fuel : Nat) (ptr offsPrev : Int) (contPrev : Nat) {e : Entry}
    (member : e ∈ entriesFrom list bOffs rOffs fuel ptr offsPrev contPrev) : ¬ Rejected bOffs e ∧ ptr < rOffs := by
  induction fuel generalizing ptr offsPrev contPrev with
  | zero => simp [entriesFrom] at member
  | succ fuel ih =>
    rw [entriesFrom] at member
    split at member
    · rename_i more
      refine ⟨?_,more⟩
      split at member
      · simp at member
      split at member
      · simp at member
      · rcases mem_cons.mp member with rfl | later
        · assumption
        · exact (ih _ _ _ later).1
    · simp at member
private theorem lastReaching_some {es : List Entry} {e : Entry} (member : e ∈ es) (reaches : Reaches bOffs e) :
    ∃ last ∈ es, Reaches bOffs last ∧ lastReaching bOffs es = some last := by
  have nonempty : es.filter (Reaches bOffs ·) ≠ [] :=
    ne_nil_of_mem (mem_filter.mpr ⟨member,by simpa using reaches⟩)
  have inside := mem_filter.mp (getLast_mem nonempty)
  exact ⟨_,inside.1,by simpa using inside.2,getLast?_eq_some_getLast nonempty⟩

/-- The byte that makes an entry of eight bytes with an offset far away. -/
def farByte : UInt8 := 0x3e
/-- The offset that puts it at the start of the list. -/
def farOffset (bOffs : Int) (e : Entry) : Int := 0x3e * 256 ^ (bOffs - e.offset).toNat - e.original

private theorem farOffset_byte {e : Entry} (accepted : ¬ Rejected bOffs e) (reaches : Reaches bOffs e) :
    (leBytes 4 (unsigned 32 (e.original + farOffset bOffs e)))[(bOffs - e.offset).toNat]? = some farByte := by
  have near := (reaches_iff.mp reaches).2
  unfold Rejected at accepted
  unfold farOffset
  rw [show (e.original : Int) + (0x3e * 256 ^ (bOffs - e.offset).toNat - e.original) =
    0x3e * 256 ^ (bOffs - e.offset).toNat by omega]
  obtain one | two | three : (bOffs - e.offset).toNat = 1 ∨ (bOffs - e.offset).toNat = 2 ∨
    (bOffs - e.offset).toNat = 3 := by omega
  · rw [one]; decide
  · rw [two]; decide
  · rw [three]; decide
theorem decodeBytes_far (tail : Bytes) (length : (farByte :: tail).length = 8) :
    0x3e000000 ≤ (decodeBytes (farByte :: tail) 0 0).1 := by
  have bytes (i : Nat) : ((farByte :: tail).getD i 0).toNat < 2 ^ 8 := UInt8.toNat_lt _
  have low : ((farByte :: tail).getD 1 0).toNat <<< 16 ||| ((farByte :: tail).getD 2 0).toNat <<< 8 |||
      ((farByte :: tail).getD 3 0).toNat < 2 ^ 24 := by
    refine Nat.or_lt_two_pow (Nat.or_lt_two_pow ?_ ?_) ?_
    · have := bytes 1; rw [Nat.shiftLeft_eq]; omega
    · have := bytes 2; rw [Nat.shiftLeft_eq]; omega
    · have := bytes 3; omega
  have offset : ((farByte :: tail).getD 0 0).toNat <<< 24 ||| ((farByte :: tail).getD 1 0).toNat <<< 16 |||
      ((farByte :: tail).getD 2 0).toNat <<< 8 ||| ((farByte :: tail).getD 3 0).toNat =
      0x3e000000 + (((farByte :: tail).getD 1 0).toNat <<< 16 ||| ((farByte :: tail).getD 2 0).toNat <<< 8 |||
        ((farByte :: tail).getD 3 0).toNat) := by
    rw [Nat.or_assoc,Nat.or_assoc,← Nat.or_assoc (((farByte :: tail).getD 1 0).toNat <<< 16)]
    exact (Nat.shiftLeft_add_eq_or_of_lt low 0x3e).symm
  simp only [decodeBytes,length,offset,Nat.reduceEqDiff,↓reduceIte]
  split <;> omega
theorem farByte_rejected {a : Bytes} (inside : 0 ≤ bOffs) (room : bOffs + 8 ≤ a.length)
    (small : bOffs ≤ 0x3e000000) (first : a[bOffs.toNat]? = some farByte) :
    ∃ e, entryAt a bOffs 0 0 = some e ∧ Rejected bOffs e := by
  obtain ⟨n,rfl⟩ : ∃ n : Nat, bOffs = n := ⟨bOffs.toNat,by omega⟩
  rw [Int.toNat_natCast] at first
  obtain ⟨below,byte⟩ := List.getElem?_eq_some_iff.mp first
  have drop : a.drop n = farByte :: a.drop (n + 1) := by rw [drop_eq_getElem_cons below,byte]
  have one : slice a n 1 = some [farByte] := by rw [slice_nat (by omega),drop]; rfl
  have eight : slice a n 8 = some (farByte :: (a.drop (n + 1)).take 7) := by rw [slice_nat (by omega),drop]; rfl
  have length := (slice_some eight).2.2.2
  have size : entrySize ([farByte].getD 0 0) = 8 := by decide
  have far := decodeBytes_far _ length
  generalize farByte :: (a.drop (n + 1)).take 7 = input at eight far
  refine ⟨⟨8,(decodeBytes input 0 0).1,(decodeBytes input 0 0).2⟩,?_,.inr (by dsimp only; omega)⟩
  simp only [entryAt,one,size,eight,bind_eq_bind,bind_some]

theorem maskEntries_of_run {binary blobSize : Bytes} {d pOffs : Int} {last : MaskState}
    (found : slice binary (rOffs + 8) 4 = some blobSize) (start : bOffs = wrap 32 (rOffs - leVal blobSize))
    (inside : ¬ bOffs < 0)
    (run : maskLoop (some d) bOffs pOffs rOffs (binary.length + 1) ⟨binary,bOffs,0,0,d,false,false⟩ =
      some (true, last)) (near : last.ptr ≤ rOffs) (fine : last.mismatch = false) :
    maskEntries binary (some d) pOffs rOffs = some ⟨.matched,last.binary,last.candidate⟩ := by
  simp only [maskEntries,found,← start,bind_eq_bind,bind_some,if_neg inside,getD_some,run,
    fine]
  rw [if_neg (by simp),if_neg (by omega)]
  simp
theorem maskEntries_rejected {binary blobSize : Bytes} {d pOffs : Int} {e : Entry}
    (found : slice binary (rOffs + 8) 4 = some blobSize) (start : bOffs = wrap 32 (rOffs - leVal blobSize))
    (inside : ¬ bOffs < 0) (below : bOffs < rOffs) (first : entryAt binary bOffs 0 0 = some e) (rejected : Rejected bOffs e) :
    maskEntries binary (some d) pOffs rOffs = some ⟨.error,binary,d⟩ := by
  have run : maskLoop (some d) bOffs pOffs rOffs (binary.length + 1) ⟨binary,bOffs,0,0,d,false,false⟩ =
      some (false,⟨binary,bOffs + e.size,e.offset,e.original,d,false,false⟩) := by
    rw [maskLoop,if_pos below,maskStep_rejected first rejected]
    rfl
  simp only [maskEntries,found,← start,bind_eq_bind,bind_some,if_neg inside,getD_some,run]
  rfl

/-- When a word reaches into the list, some offset makes the masked binary one that cannot be
    masked any more. -/
theorem overlap_breaks {binary : Bytes} {binarySize : Int} (starts : ListStarts binary binarySize bOffs)
    (high : 17 < bOffs) (small : bOffs ≤ 0x3e000000) {d : Int} {masked : Masked}
    (done : retouchMaskData binary binarySize (some d) = some masked) (matched : masked.code = .matched)
    {e : Entry} (member : e ∈ listed binary binarySize bOffs) (reaches : Reaches bOffs e) :
    ∃ d₁ again, retouchMaskData binary binarySize (some d₁) = some again ∧ again.code = .matched ∧
      retouchMaskData again.binary binarySize (some d₁) ≠ retouchMaskData binary binarySize (some d₁) := by
  obtain ⟨tagged,blobSize,found,start⟩ := starts
  have gap := tagged_gap tagged
  have room : prelinkAt binarySize + 8 ≤ binary.length := by
    have := (slice_some tagged.prelink).2.1
    omega
  have below := (entriesFrom_accepted _ _ _ _ member).2
  rw [retouchMaskData_tagged tagged] at done
  obtain ⟨blobSize',last,found',-,run,near,-⟩ := maskEntries_matched done matched
  obtain rfl : blobSize = blobSize' := some.inj (found.symm.trans found')
  rw [← start,getD_some] at run
  -- every offset makes the same walk, so all of them match
  have runs (d : Int) := maskLoop_walk d room gap high (by omega) (binary.length + 1)
    ⟨binary,bOffs,0,0,d,false,false⟩ (.refl binary) (.inl ⟨rfl,rfl⟩) rfl (fun set => by cases set)
  obtain ⟨⟨good,p⟩,walked⟩ : ∃ w, walk binary bOffs (retouchAt binarySize) (binary.length + 1) bOffs 0 0 = some w := by
    rw [← ne_none_iff_exists']
    intro none
    rw [(runs d).1 none] at run
    cases run
  obtain ⟨rfl,rfl⟩ : good = true ∧ last.ptr = p := by
    obtain ⟨last',run',ends,-⟩ := (runs d).2 good p walked
    rw [run] at run'
    cases run'
    exact ⟨rfl,ends⟩
  obtain ⟨final,inList,reachesLast,isLast⟩ := lastReaching_some member reaches
  have accepted := (entriesFrom_accepted _ _ _ _ inList).1
  obtain ⟨last',run',ends,fine,kept,byte⟩ := (runs (farOffset bOffs final)).2 _ _ walked
  have entries : entriesFrom binary bOffs (retouchAt binarySize) (binary.length + 1) bOffs 0 0 =
    listed binary binarySize bOffs := rfl
  rw [entries,firstByte,isLast] at byte
  have matches' := maskEntries_of_run found start (by omega) run' (by omega) fine
  have tagged' : Tagged last'.binary binarySize := by
    refine ⟨tagged.room,?_,?_⟩
    · rw [← kept.slice (by omega) (.inr (by omega)),tagged.prelink]
    · rw [← kept.slice near (.inl (by omega)),tagged.retouch]
  have found'' : slice last'.binary (retouchAt binarySize + 8) 4 = some blobSize := by
    rw [← kept.slice (by omega) (.inl (by omega)),found]
  obtain ⟨far,first,rejected⟩ := farByte_rejected (by omega) (by rw [← kept.length]; omega) small
    (byte.trans (farOffset_byte accepted reachesLast))
  refine ⟨farOffset bOffs final,_,(retouchMaskData_tagged tagged _).trans matches',rfl,fun same => ?_⟩
  rw [retouchMaskData_tagged tagged,retouchMaskData_tagged tagged',matches',
    maskEntries_rejected found'' start (by omega) below first rejected] at same
  cases same

/-- Masking gives the same for a binary and for the masked one. -/
def Repeats (binary : Bytes) (binarySize : Int) : Prop :=
  ∀ d₁ d₂ masked, retouchMaskData binary binarySize (some d₁) = some masked → masked.code = .matched →
    retouchMaskData masked.binary binarySize (some d₂) = retouchMaskData binary binarySize (some d₂)

/-- Masking repeats when no word reaches into the list. For a list that starts at an offset from
    18 to `0x3e000000` this is also needed, if masking matches at all. -/
theorem masking_repeats_iff_apart (binary : Bytes) (binarySize : Int) :
    (WordsApart binary binarySize → Repeats binary binarySize) ∧
    ∀ bOffs, ListStarts binary binarySize bOffs → 17 < bOffs → bOffs ≤ 0x3e000000 →
      (∃ d masked, retouchMaskData binary binarySize (some d) = some masked ∧ masked.code = .matched) →
      (Repeats binary binarySize ↔ WordsApart binary binarySize) := by
  have enough (apart : WordsApart binary binarySize) : Repeats binary binarySize :=
    fun _ _ _ first matched => masked_again apart first matched
  refine ⟨enough, fun bOffs starts high small ⟨d, masked, done, matched⟩ => ⟨fun repeats => ?_, enough⟩⟩
  intro bOffs' starts' e member
  obtain rfl : bOffs' = bOffs := by
    obtain ⟨-, blobSize, found, rfl⟩ := starts
    obtain ⟨-, blobSize', found', rfl⟩ := starts'
    rw [Option.some.inj (found.symm.trans found')]
  by_contra reaches
  obtain ⟨d₁, again, first, matched, differs⟩ := overlap_breaks starts high small done matched member reaches
  exact differs (repeats d₁ d₁ again first matched)

/-- A binary of 20 bytes of code whose list has one entry, for the word at the given offset. -/
def oneWord (offset : UInt8) : Bytes :=
  List.replicate 20 0 ++ [0, 0, 0, offset, 0, 0, 0, 0] ++ retouchTag ++ [8, 0, 0, 0] ++ [0, 0, 0, 0] ++ prelinkTag

theorem oneWord_starts : ListStarts (oneWord 16) 48 20 :=
  ⟨⟨by decide,by decide,by decide⟩,[8,0,0,0],by decide,by decide⟩
theorem oneWord_apart : WordsApart (oneWord 16) 48 := by
  rintro bOffs ⟨-,blobSize,found,rfl⟩ e member
  obtain rfl : blobSize = [8,0,0,0] := some.inj (found.symm.trans (by decide))
  obtain rfl := mem_singleton.mp member
  exact .inr (by decide)
/-- The word at 16 ends where the list starts. -/
theorem oneWord_repeats : Repeats (oneWord 16) 48 ∧ (Repeats (oneWord 16) 48 ↔ WordsApart (oneWord 16) 48) := by
  have both := masking_repeats_iff_apart (oneWord 16) 48
  refine ⟨both.1 oneWord_apart, both.2 20 oneWord_starts (by decide) (by decide) ?_⟩
  exact ⟨0, ⟨.matched, oneWord 16, 0⟩, by decide +kernel, rfl⟩
/-- The word at 17 reaches into the list: the masked binary has lost it. -/
theorem reaching_word_lost :
    (retouchMaskData (oneWord 17) 48 (some 0x3e000000)).map Masked.code = some .matched ∧
      (retouchMaskData (oneWord 17) 48 (some 0)).map Masked.code = some .matched ∧
      ((retouchMaskData (oneWord 17) 48 (some 0x3e000000)).bind fun masked =>
        retouchMaskData masked.binary 48 (some 0)).map Masked.code = some .error := by
  decide +kernel

end Recovery.RetouchOverlap
