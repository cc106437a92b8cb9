import Recovery.Bspatch
import Recovery.Scanning
import Recovery.StoredLibs

/-!
`ApplyBSDiffPatchMem` undoes `bsdiff`. The control loop follows the triples one by
one: at each of them the buffer holds the new data up to where the triple starts.
-/
namespace Recovery.RoundTrip
open Memory Numbers Qsufsort Bsdiff Bspatch Scanning List Option
open StoredLibs

variable {old new : Bytes} {part : Old} {x a p : Nat}

/-! ## A triple -/

def Handed (part : Old) (old : Bytes) : Prop := ∀ i < old.length, part.at i = old[i]?

theorem handed_whole (old : Bytes) : Handed ⟨old,0,old.length⟩ old := by
  intro i inside
  have within : (0 : Int) ≤ i ∧ (i : Int) < old.length := by omega
  simp [Old.at,within]

private theorem readByte_nat (b : Bytes) (i : Nat) : readByte b i = b[i]? := by simp [readByte]

theorem addOld_diffBytes (handed : Handed part old) {diff : Bytes} (low : p + x ≤ old.length)
    (high : a + x ≤ new.length) (differs : diffBytes old new x a p = some diff) :
    diff.length = x ∧ addOld part p diff = some ((new.drop a).take x) := by
  induction x generalizing a p diff with
  | zero =>
    obtain rfl := some.inj differs
    simp [addOld]
  | succ x ih =>
    have next : (a : Int) + 1 = ((a + 1 : Nat) : Int) := by push_cast; rfl
    have next' : (p : Int) + 1 = ((p + 1 : Nat) : Int) := by push_cast; rfl
    obtain ⟨rest,tail⟩ := diffBytes_inside old new (x := x) (a := a + 1) (p := p + 1) (by omega) (by omega)
    have readNew : new[a]? = some new[a] := getElem?_eq_getElem _
    have readOld : old[p]? = some old[p] := getElem?_eq_getElem _
    simp only [diffBytes,readByte_nat,readNew,readOld,next,next',tail,bind_eq_bind,bind_some,
      some.injEq] at differs
    subst differs
    obtain ⟨size,added⟩ := ih (by omega) (by omega) tail
    refine ⟨by simp [size],?_⟩
    have here := handed p (by omega)
    rw [readOld] at here
    rw [addOld,here,next']
    simp only [bind_eq_bind,bind_some,added]
    rw [drop_eq_getElem_cons (show a < new.length by omega),take_succ_cons]
    simp

variable {buf db eb : Bytes} {y q : Nat} {z : Int} {ctrl : Bytes}

theorem setSlice_next (size : buf.length = new.length) (before : buf.take a = new.take a)
    (inside : a + y ≤ new.length) :
    ∃ buf', setSlice buf a ((new.drop a).take y) = some buf' ∧ buf'.length = new.length ∧
      buf'.take (a + y) = new.take (a + y) := by
  have count : ((new.drop a).take y).length = y := by
    simp only [length_take,length_drop]
    omega
  have fits : (0 : Int) ≤ a ∧ (a : Int) + ((new.drop a).take y).length ≤ buf.length := by omega
  refine ⟨buf.take a ++ (new.drop a).take y ++ buf.drop (a + y),?_,?_,?_⟩
  · rw [setSlice,if_pos fits,count,Int.toNat_natCast]
  · simp only [length_append,length_take,length_drop]
    omega
  · rw [before,← take_add,take_left' (by simp only [length_take]; omega)]

theorem fillBuffer_append (front back : Bytes) (fin : StreamEnd) :
    fillBuffer front.length ⟨front ++ back,fin⟩ = .ok (front, ⟨back,fin⟩) := by
  simp [fillBuffer]

private theorem sums_small {p' : Nat} (smallNew : a + x + y < 2 ^ 31) (smallOld : p + x < 2 ^ 31)
    (moved : (p : Int) + x + z = p') (inside : p' < 2 ^ 31) :
    wrap 64 ((a : Int) + x) = ((a + x : Nat) : Int) ∧ wrap 64 (((a + x : Nat) : Int) + y) = ((a + x + y : Nat) : Int) ∧
      wrap 64 (wrap 64 ((p : Int) + x) + z) = p' := by
  refine ⟨?_,?_,?_⟩
  · rw [wrap_small (by omega) (by omega)]
    rfl
  · rw [wrap_small (by omega) (by omega)]
    rfl
  · rw [wrap_small (x := (p : Int) + x) (by omega) (by omega),moved,wrap_small (by omega) (by omega)]

theorem triple_read (smallX : x < 2 ^ 32) (smallY : y < 2 ^ 32) (low : -(2 ^ 63) < z) (high : z < 2 ^ 63) :
    offtin ((offtout x ++ offtout y ++ offtout z).take 8) = (x : Int) ∧
      offtin (((offtout x ++ offtout y ++ offtout z).drop 8).take 8) = (y : Int) ∧
      offtin (((offtout x ++ offtout y ++ offtout z).drop 16).take 8) = z := by
  refine ⟨?_,?_,?_⟩
  · rw [append_assoc,take_left' (by simp),offtin_offtout (by omega) (by omega)]
  · rw [append_assoc,drop_left' (by simp),take_left' (by simp),offtin_offtout (by omega) (by omega)]
  · rw [drop_left' (by simp),take_of_length_le (by simp),offtin_offtout low high]

/-! ## The control loop -/

private theorem controlLoop_round (handed : Handed part old) (smallOld : old.length < 2 ^ 31)
    (smallNew : new.length < 2 ^ 31) {p' : Nat} {diff : Bytes} (low : p + x ≤ old.length)
    (high : a + x + y ≤ new.length) (moved : (p : Int) + x + z = p') (inside : p' ≤ old.length)
    (differs : diffBytes old new x a p = some diff) (more : a < new.length) (size : buf.length = new.length)
    (before : buf.take a = new.take a) (fuel : Nat) (cfin dfin efin : StreamEnd) :
    ∃ buf', buf'.length = new.length ∧ buf'.take (a + x + y) = new.take (a + x + y) ∧
      controlLoop part new.length (fuel + 1) ⟨offtout x ++ offtout y ++ offtout z ++ ctrl,cfin⟩ ⟨diff ++ db,dfin⟩
        ⟨(new.drop (a + x)).take y ++ eb,efin⟩ p a buf =
      controlLoop part new.length fuel ⟨ctrl,cfin⟩ ⟨db,dfin⟩ ⟨eb,efin⟩ p' ((a + x + y : Nat) : Int) buf' := by
  obtain ⟨count,added⟩ := addOld_diffBytes handed low (by omega) differs
  obtain ⟨buf₁,stored,size₁,before₁⟩ := setSlice_next (y := x) size before (by omega)
  obtain ⟨buf₂,stored',size₂,before₂⟩ := setSlice_next (y := y) size₁ before₁ high
  refine ⟨buf₂,size₂,before₂,?_⟩
  have positive : ¬ ((x : Int) < 0 ∨ (y : Int) < 0) := by omega
  have going : (a : Int) < new.length := by omega
  have fits : ¬ ((a + x : Nat) : Int) > new.length := by omega
  have fits' : ¬ ((a + x + y : Nat) : Int) > new.length := by omega
  have short : ¬ (2 ^ 31 : Int) ≤ x := by omega
  have next : (a : Int) + x = ((a + x : Nat) : Int) := by push_cast; rfl
  have extra : ((new.drop (a + x)).take y).length = y := by
    simp only [length_take,length_drop]
    omega
  have readCtrl := fillBuffer_append (offtout x ++ offtout y ++ offtout z) ctrl cfin
  have readDiff := fillBuffer_append diff db dfin
  have readExtra := fillBuffer_append ((new.drop (a + x)).take y) eb efin
  rw [show (offtout x ++ offtout y ++ offtout z).length = 24 by simp] at readCtrl
  rw [count,← unsigned_small (show x < 2 ^ 32 by omega)] at readDiff
  rw [extra] at readExtra
  have word := unsigned_small (show y < 2 ^ 32 by omega)
  obtain ⟨first,second,third⟩ := triple_read (x := x) (y := y) (z := z) (by omega) (by omega) (by omega) (by omega)
  obtain ⟨sum,sum',place⟩ := sums_small (a := a) (x := x) (y := y) (by omega) (by omega) moved (by omega)
  rw [controlLoop,if_pos going,readCtrl]
  simp only [orFail,Ret.ok_bind,first,second,third]
  rw [if_neg positive,sum,if_neg fits,readDiff]
  simp only [Ret.ok_bind]
  rw [if_neg short,added,Ret.need_some,Ret.ok_bind,stored,Ret.need_some,Ret.ok_bind,next,sum',if_neg fits',word,
    readExtra]
  simp only [Ret.ok_bind]
  rw [stored',Ret.need_some,Ret.ok_bind,place]

private theorem controlLoop_tiled (handed : Handed part old) (smallOld : old.length < 2 ^ 31)
    (smallNew : new.length < 2 ^ 31) {cfin dfin efin : StreamEnd} {b : Nat}
    (tiled : Tiled old new a p b q ctrl db eb) (whole : b = new.length) {fuel : Nat}
    (enough : ctrl.length < fuel) (size : buf.length = new.length) (before : buf.take a = new.take a) :
    controlLoop part new.length fuel ⟨ctrl,cfin⟩ ⟨db,dfin⟩ ⟨eb,efin⟩ p a buf = .ok new := by
  -- a loop that is at the end has the whole of the new data
  have ended {a : Nat} {buf : Bytes} (size : buf.length = new.length) (before : buf.take a = new.take a)
      (upTo : new.length ≤ a) : buf = new := by
    rwa [take_of_length_le (by omega),take_of_length_le upTo] at before
  induction tiled generalizing fuel buf with
  | nil a p =>
    obtain ⟨fuel,rfl⟩ : ∃ f, fuel = f + 1 := ⟨fuel - 1,by omega⟩
    rw [controlLoop,if_neg (by omega),ended size before (by omega)]
  | @cons a p x y p' b q z ctrl diff db eb low high moved inside differs rest ih =>
    obtain ⟨fuel,rfl⟩ : ∃ f, fuel = f + 1 := ⟨fuel - 1,by omega⟩
    simp only [length_append,offtout_length] at enough
    by_cases more : a < new.length
    · obtain ⟨buf',size',before',round⟩ := controlLoop_round handed smallOld smallNew low high moved inside differs more
        size before fuel cfin dfin efin
      rw [round]
      exact ih whole (by omega) size' before'
    · rw [controlLoop,if_neg (by omega),ended size before (by omega)]

/-! ## The whole patch -/

/-- The blocks as the decoder finds them in a blob, at an offset and with anything after
    them. -/
theorem applyBSDiffPatchMem_tiled {L : Libs} (bz : BzRoundTrips L) (handed : Handed part old)
    (smallOld : old.length < 2 ^ 31) (smallNew : new.length < 2 ^ 31) (room : L.room new.length) (before after : Bytes)
    (tiled : Tiled old new 0 0 new.length q ctrl db eb)
    (shortC : (L.bzEncode ctrl).length < 2 ^ 32) (shortD : (L.bzEncode db).length < 2 ^ 32)
    (shortE : (L.bzEncode eb ++ after).length < 2 ^ 32) :
    applyBSDiffPatchMem L part (before ++ (bsdiffMagic ++ offtout (L.bzEncode ctrl).length ++
      offtout (L.bzEncode db).length ++ offtout new.length ++ L.bzEncode ctrl ++ L.bzEncode db ++ L.bzEncode eb) ++ after)
      before.length = .ok new := by
  set C := L.bzEncode ctrl
  set D := L.bzEncode db
  set E := L.bzEncode eb
  set blob := before ++ (bsdiffMagic ++ offtout C.length ++ offtout D.length ++ offtout new.length ++ C ++ D ++ E) ++ after
    with whole
  have magicSize : bsdiffMagic.length = 8 := by decide
  have size : blob.length = before.length + 32 + C.length + D.length + (E ++ after).length := by
    simp only [whole,length_append,magicSize,offtout_length]
    omega
  have magic : slice blob before.length 8 = some bsdiffMagic := by
    rw [slice_nat (by omega),whole,append_assoc,drop_left' rfl]
    simp only [append_assoc]
    rw [take_left' magicSize]
  have header : slice blob ((before.length : Int) + 8) 24 =
      some (offtout C.length ++ offtout D.length ++ offtout new.length) := by
    have place : (before.length : Int) + 8 = ((before.length + 8 : Nat) : Int) := by push_cast; rfl
    rw [place,slice_nat (by omega),whole,append_assoc,← drop_drop,drop_left' rfl]
    simp only [append_assoc]
    rw [drop_left' magicSize,← append_assoc (offtout C.length),← append_assoc (_ ++ _),
      take_left' (by simp)]
    simp
  obtain ⟨ctrlLen,dataLen,newSize⟩ := triple_read (x := C.length) (y := D.length) (z := new.length) shortC shortD
    (by omega) (by omega)
  have rest : blob.drop (before.length + 32) = C ++ D ++ (E ++ after) := by
    rw [whole,append_assoc,← drop_drop,drop_left' rfl]
    simp only [append_assoc]
    rw [← append_assoc bsdiffMagic,← append_assoc (_ ++ _),← append_assoc (_ ++ _ ++ _),
      drop_left' (by simp [magicSize])]
  have windowC : window blob ((before.length : Int) + 32) (unsigned 32 C.length) = C := by
    have place : (before.length : Int) + 32 = ((before.length + 32 : Nat) : Int) := by push_cast; rfl
    rw [place,window_nat,rest,unsigned_small shortC,append_assoc,take_left' rfl]
  have windowD : window blob ((before.length : Int) + 32 + C.length) (unsigned 32 D.length) = D := by
    have place : (before.length : Int) + 32 + C.length = ((before.length + 32 + C.length : Nat) : Int) := by push_cast; rfl
    rw [place,window_nat,← drop_drop,rest,unsigned_small shortD,append_assoc,drop_left' rfl,
      take_left' rfl]
  have windowE : window blob ((before.length : Int) + 32 + C.length + D.length)
      (unsigned 32 (blob.length - ((before.length : Int) + 32 + C.length + D.length))) = E ++ after := by
    have place : (before.length : Int) + 32 + C.length + D.length =
      ((before.length + 32 + (C.length + D.length) : Nat) : Int) := by push_cast; ring
    have left : (blob.length : Int) - ((before.length : Int) + 32 + C.length + D.length) = ((E ++ after).length : Int) := by
      omega
    rw [left,place,window_nat,← drop_drop,rest,unsigned_small shortE,drop_left' (by simp),
      take_of_length_le (le_refl _)]
  have decodedC : L.bzDecode C = ⟨ctrl,.ended⟩ := by simpa using bz ctrl []
  have decodedD : L.bzDecode D = ⟨db,.ended⟩ := by simpa using bz db []
  have decodedE : L.bzDecode (E ++ after) = ⟨eb,.ended⟩ := bz eb after
  have sizes : ¬ ((C.length : Int) < 0 ∨ (D.length : Int) < 0 ∨ (new.length : Int) < 0) := by omega
  rw [applyBSDiffPatchMem,magic,header]
  simp only [Ret.need_some,Ret.ok_bind,ne_eq,not_true_eq_false,if_false,ctrlLen,dataLen,newSize,sizes,windowC,windowD,
    windowE,decodedC,decodedD,decodedE,Int.toNat_natCast,room,if_true]
  exact controlLoop_tiled handed smallOld smallNew tiled rfl (by omega) (by simp) (by simp)

/-- An array that `bsdiff` may be given for the old data: one that it sorted itself. -/
def SortedFor (old : Bytes) (I : Words) : Prop := ∃ found : Found old, qsufsort found.I found.V old = some I

/-- Each block of a patch between the two is less than 4 GiB once it is compressed; the
    decoder counts the bytes it hands to bzip2 in 32 bits. -/
def BzFits (L : Libs) (old new : Bytes) : Prop := ∀ I pos ctrl db eb, SortedFor old I →
  blocks I pos old new = some (ctrl, db, eb) → ∀ block ∈ [ctrl, db, eb], (L.bzEncode block).length < 2 ^ 32

theorem sortedFor_indices {I : Words} (sorted : SortedFor old I) : Indices old I := by
  obtain ⟨found,run⟩ := sorted
  obtain ⟨I',run',_,indices⟩ := SuffixSort.qsufsort_spec found.sizeI found.sizeV
  obtain rfl := some.inj (run.symm.trans run')
  exact indices

private theorem bsdiff_array (old : Bytes) (found : Found old) {IP : Option Words} (cached : ∀ I, IP = some I → SortedFor old I) :
    ∃ I, SortedFor old I ∧ suffixes found IP = .ok I := by
  cases IP with
  | some I => exact ⟨I,cached I rfl,rfl⟩
  | none =>
    obtain ⟨I,run,_⟩ := SuffixSort.qsufsort_spec found.sizeI found.sizeV
    exact ⟨I,⟨found,run⟩,by simp [suffixes,run]⟩

/-- Applying the patch that `bsdiff` writes gives the new data, whether the suffixes were
    sorted for this call or an earlier one; the array that is left is good for the next. -/
theorem bsdiff_round_trips {L : Libs} (bz : BzRoundTrips L) (old new : Bytes) (smallOld : old.length < 2 ^ 31)
    (smallNew : new.length < 2 ^ 31) (found : Found old) (IP : Option Words) (cached : ∀ I, IP = some I → SortedFor old I)
    (fits : BzFits L old new) (room : L.room (new.length + 1)) (room' : L.room new.length) :
    ∃ patch I, bsdiff L old found IP new = .ok (patch, I) ∧ SortedFor old I ∧
      applyBSDiffPatchMem L ⟨old, 0, old.length⟩ patch 0 = .ok new := by
  obtain ⟨I, sorted, array⟩ := bsdiff_array old found cached
  obtain ⟨ctrl, db, eb, q, run, tiled⟩ := blocks_spec (sortedFor_indices sorted) found.pos new
  have short := fits I found.pos ctrl db eb sorted run
  have applied := applyBSDiffPatchMem_tiled bz (handed_whole old) smallOld smallNew room' [] [] tiled
    (short ctrl (by simp)) (short db (by simp)) (by simpa using short eb (by simp))
  simp only [nil_append, append_nil, length_nil, Nat.cast_zero] at applied
  refine ⟨_, I, ?_, sorted, applied⟩
  unfold bsdiff
  rw [array, Ret.ok_bind, if_pos room, run]
  rfl

/-! ## Small patches -/

private theorem tiled_sizes {b : Nat} (tiled : Tiled old new a p b q ctrl db eb) :
    db.length + eb.length + a = b := by
  induction tiled with
  | nil => simp
  | @cons a p x y p' b q z ctrl diff db eb low high moved inside differs rest ih =>
    have count := (addOld_diffBytes (handed_whole old) low (by omega) differs).1
    simp only [length_append,length_take,length_drop,count]
    omega

private theorem bzFits_small {L : Libs} {k c : Nat} (grows : ∀ data, (L.bzEncode data).length ≤ k * data.length + c)
    (small : k * (24 * (new.length + 2)) + c < 2 ^ 32) : BzFits L old new := by
  intro I pos ctrl db eb sorted run block member
  obtain ⟨ctrl',db',eb',q,run',tiled⟩ := blocks_spec (sortedFor_indices sorted) pos new
  obtain ⟨rfl,rfl,rfl⟩ : ctrl = ctrl' ∧ db = db' ∧ eb = eb' := by
    have same := some.inj (run.symm.trans run')
    simpa using same
  have sizes := tiled_sizes tiled
  have triples : ctrl.length ≤ 24 * (new.length + 2) := by
    obtain ⟨s,looped,same⟩ := bind_eq_some_iff.mp run
    have bound := outerLoop_ctrl looped
    have first : s.ctrl = ctrl := by
      have := some.inj same
      exact congrArg Prod.fst this
    rw [← first]
    simpa using bound
  have length : block.length ≤ 24 * (new.length + 2) := by
    simp only [mem_cons,not_mem_nil,or_false] at member
    rcases member with rfl | rfl | rfl <;> omega
  have := grows block
  have := Nat.mul_le_mul_left k length
  omega

theorem storedLibs_fits (small : new.length < 2 ^ 20) : BzFits storedLibs old new :=
  bzFits_small (k := 2) (c := 51) bzEncode_length (by omega)

def bootOld : Bytes := ascii "kernel 3.4 ramdisk 3.4"
def bootNew : Bytes := ascii "kernel 3.10 ramdisk 3.4 extra"
/-- Memory that holds nothing of use. -/
def bootFound : Found bootOld := ⟨List.replicate 23 77, List.replicate 23 (-5), 1000, by decide, by decide⟩

/-- Two patches from one old string, the second with the array that the first call left. -/
theorem bsdiff_round_trips_twice :
    ∃ patch I patch' I', bsdiff storedLibs bootOld bootFound none bootNew = .ok (patch, I) ∧
      applyBSDiffPatchMem storedLibs ⟨bootOld, 0, 22⟩ patch 0 = .ok bootNew ∧
      bsdiff storedLibs bootOld bootFound (some I) [] = .ok (patch', I') ∧
      applyBSDiffPatchMem storedLibs ⟨bootOld, 0, 22⟩ patch' 0 = .ok [] := by
  obtain ⟨patch, I, written, sorted, applied⟩ := bsdiff_round_trips storedLibs_bzRoundTrips bootOld bootNew (by decide)
    (by decide) bootFound none (by simp) (storedLibs_fits (by decide)) rfl rfl
  obtain ⟨patch', I', written', _, applied'⟩ := bsdiff_round_trips storedLibs_bzRoundTrips bootOld [] (by decide)
    (by decide) bootFound (some I) (by rintro _ ⟨⟩; exact sorted) (storedLibs_fits (by decide)) rfl rfl
  exact ⟨patch, I, patch', I', written, applied, written', applied'⟩

end Recovery.RoundTrip
