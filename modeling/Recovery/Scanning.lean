import Recovery.Bsdiff
import Recovery.SuffixSort

/-!
What the scan of `bsdiff` keeps: whatever the suffix sort says, the triples written so
far cover the new data up to `lastscan`, every index of the old data used is inside it,
and each round gets further.
-/
namespace Recovery.Scanning
open Memory Numbers Qsufsort Splitting Bsdiff Option

variable {I : Words} {old new : Bytes}

theorem readByte_inside {b : Bytes} {i : Int} (low : 0 ≤ i) (high : i < b.length) : ∃ c, readByte b i = some c :=
  ⟨_,by rw [readByte,if_pos low,List.getElem?_eq_getElem (by omega)]⟩
theorem tail_inside {b : Bytes} {i : Int} (low : 0 ≤ i) (high : i ≤ b.length) : tail b i = some (b.drop i.toNat) := by
  rw [tail,if_pos ⟨low,high⟩]

/-! ## `search` -/

theorem matchlen_bounds (old new : Bytes) : 0 ≤ matchlen old new ∧ matchlen old new ≤ old.length ∧ matchlen old new ≤ new.length := by
  induction old generalizing new with
  | nil => cases new <;> simp [matchlen]; omega
  | cons a old ih =>
    cases new with
    | nil => simp [matchlen]; omega
    | cons b new =>
      have := ih new
      rw [matchlen]
      split <;> simp only [List.length_cons] <;> omega

/-- Entries that are indices of the old data or its length. -/
def Indices (old : Bytes) (I : Words) : Prop := ∀ k ≤ old.length, ∃ a : Nat, a ≤ old.length ∧ I[k]? = some (a : Int)

theorem search_spec (indices : Indices old I) (new : Bytes) {fuel st en : Nat} (low : st ≤ en) (high : en ≤ old.length)
    (enough : en - st < fuel) :
    ∃ len pos, search I old new fuel st en = some (len, pos) ∧ 0 ≤ len ∧ len ≤ new.length ∧ 0 ≤ pos ∧ pos ≤ old.length := by
  induction fuel generalizing st en with
  | zero => omega
  | succ fuel ih =>
    rw [search]
    by_cases close : (en : Int) - st < 2
    · obtain ⟨p,inside,first⟩ := indices st (by omega)
      obtain ⟨q,inside',last⟩ := indices en high
      have bounds := matchlen_bounds (old.drop p) new
      have bounds' := matchlen_bounds (old.drop q) new
      simp only [if_pos close,peek_nat,first,last,bind_eq_bind,bind_some,
        tail_inside (Int.natCast_nonneg p) (show (p : Int) ≤ old.length by omega),
        tail_inside (Int.natCast_nonneg q) (show (q : Int) ≤ old.length by omega),Int.toNat_natCast]
      split
      · exact ⟨_,_,rfl,bounds.1,bounds.2.2,by omega,by omega⟩
      · exact ⟨_,_,rfl,bounds'.1,bounds'.2.2,by omega,by omega⟩
    · obtain ⟨p,inside,middle⟩ := indices (st + (en - st) / 2) (by omega)
      have half : (st : Int) + ((en : Int) - st) / 2 = ((st + (en - st) / 2 : Nat) : Int) := by omega
      simp only [if_neg close,half,peek_nat,middle,bind_eq_bind,bind_some,
        tail_inside (Int.natCast_nonneg p) (show (p : Int) ≤ old.length by omega)]
      split
      · exact ih (by omega) high (by omega)
      · exact ih (by omega) (by omega) (by omega)

/-! ## The inner loop -/

theorem agrees_inside (old new : Bytes) {offset i : Int} (low : 0 ≤ i + offset) (start : 0 ≤ i) (high : i < new.length) :
    ∃ same, agrees old new offset i = some same := by
  rw [agrees]
  split
  · obtain ⟨a,found⟩ := readByte_inside (b := old) low ‹_›
    obtain ⟨b,found'⟩ := readByte_inside start high
    exact ⟨_,by rw [found,found']; rfl⟩
  · exact ⟨_,rfl⟩

theorem scoreLoop_spec (old : Bytes) {lastoffset stop : Int} (inside : stop ≤ new.length) {fuel : Nat} {scsc : Int}
    (oldscore : Int) (start : 0 ≤ scsc) (low : 0 ≤ scsc + lastoffset) (enough : (stop - scsc).toNat < fuel) :
    ∃ scsc' oldscore', scoreLoop old new lastoffset stop fuel scsc oldscore = some (scsc', oldscore') ∧
      scsc ≤ scsc' ∧ oldscore ≤ oldscore' := by
  induction fuel generalizing scsc oldscore with
  | zero => omega
  | succ fuel ih =>
    rw [scoreLoop]
    by_cases more : scsc < stop
    · obtain ⟨same,read⟩ := agrees_inside old new low start (by omega)
      obtain ⟨scsc',oldscore',run,after,score⟩ := ih (if same then oldscore + 1 else oldscore)
        (show 0 ≤ scsc + 1 by omega) (by omega) (by omega)
      refine ⟨scsc',oldscore',?_,by omega,?_⟩
      · rw [if_pos more,read]
        exact run
      · split at score <;> omega
    · exact ⟨scsc,oldscore,by rw [if_neg more],by omega,by omega⟩

/-- A place that the scan may be at: if it is not at the end, the match is inside the
    new data. -/
structure Sound (old new : Bytes) (entry : Int) (found : Place) : Prop where
  after : entry ≤ found.scan
  upTo : found.scan ≤ new.length
  pos : 0 ≤ found.pos ∧ found.pos ≤ old.length
  further : found.scan < new.length → 0 ≤ found.len ∧ found.scan + found.len ≤ new.length ∧ entry < found.scan + found.len

/-- The inner loop gets further than the place it was entered at: a match taken there
    beats a score that is not negative. -/
theorem scanLoop_spec (indices : Indices old I) {lastoffset entry : Int} (start : 0 ≤ entry) (low : 0 ≤ entry + lastoffset)
    (fuel : Nat) (scsc : Int) (at_ : Place) (after : entry ≤ at_.scan) (upTo : at_.scan ≤ new.length) (behind : entry ≤ scsc)
    (known : at_.scan < new.length ∨ (0 ≤ at_.pos ∧ at_.pos ≤ old.length)) (score : 0 ≤ at_.oldscore ∨ entry < at_.scan)
    (enough : new.length - at_.scan < fuel) :
    ∃ found, scanLoop I old new lastoffset fuel scsc at_ = some found ∧ Sound old new entry found := by
  induction fuel generalizing scsc at_ with
  | zero => omega
  | succ fuel ih =>
    rw [scanLoop]
    by_cases more : at_.scan < new.length
    · obtain ⟨len,pos,searched,lenLow,lenHigh,valid⟩ := search_spec indices (new.drop at_.scan.toNat)
        (show 0 ≤ old.length by omega) le_rfl (show old.length - 0 < old.length + 1 by omega)
      have searched' : search I old (new.drop at_.scan.toNat) (old.length + 1) 0 old.length = some (len,pos) := by
        exact_mod_cast searched
      have room : at_.scan + len ≤ new.length := by
        simp only [List.length_drop] at lenHigh
        omega
      obtain ⟨scsc',oldscore,scored,behind',grown⟩ := scoreLoop_spec old room at_.oldscore
        (show 0 ≤ scsc by omega) (show 0 ≤ scsc + lastoffset by omega) (show _ < new.length + 1 by omega)
      obtain ⟨same,read⟩ := agrees_inside old new (show 0 ≤ at_.scan + lastoffset by omega) (by omega) more
      simp only [if_pos more,tail_inside (show 0 ≤ at_.scan by omega) upTo,bind_eq_bind,bind_some,searched',
        scored]
      split
      · exact ⟨_,rfl,after,upTo,valid,fun _ => ⟨lenLow,room,by dsimp only; omega⟩⟩
      · rw [read,bind_some]
        exact ih _ _ (by dsimp only; omega) (by dsimp only; omega) (by omega) (.inr valid) (.inr (by dsimp only; omega))
          (by dsimp only; omega)
    · refine ⟨at_,by rw [if_neg more],after,upTo,known.resolve_left more,fun less => absurd less more⟩

/-! ## A control triple -/

theorem forwardLoop_spec (old new : Bytes) {scan lastscan lastpos : Int} (low : 0 ≤ lastscan) (low' : 0 ≤ lastpos) (high : scan ≤ new.length)
    (fuel : Nat) (i s Sf lenf : Int) (start : 0 ≤ i) (upTo : 0 ≤ lenf ∧ lenf ≤ i)
    (inside : lastscan + i ≤ scan ∧ lastpos + i ≤ old.length) (enough : scan - (lastscan + i) < fuel) :
    ∃ lenf', forwardLoop old new scan lastscan lastpos fuel i s Sf lenf = some lenf' ∧
      0 ≤ lenf' ∧ lastscan + lenf' ≤ scan ∧ lastpos + lenf' ≤ old.length := by
  induction fuel generalizing i s Sf lenf with
  | zero => omega
  | succ fuel ih =>
    rw [forwardLoop]
    by_cases more : lastscan + i < scan ∧ lastpos + i < old.length
    · obtain ⟨a,read⟩ := readByte_inside (b := old) (i := lastpos + i) (by omega) more.2
      obtain ⟨b,read'⟩ := readByte_inside (b := new) (i := lastscan + i) (by omega) (by omega)
      simp only [if_pos more,read,read',bind_eq_bind,bind_some]
      generalize (if a = b then s + 1 else s) = s
      split <;> exact ih _ _ _ _ (by omega) (by omega) (by omega) (by omega)
    · exact ⟨lenf,by rw [if_neg more],by omega,by omega,by omega⟩

theorem backwardLoop_spec (old new : Bytes) {scan pos lastscan : Int} (low : 0 ≤ lastscan) (high : scan ≤ new.length) (valid : pos ≤ old.length)
    (fuel : Nat) (i s Sb lenb : Int) (start : 1 ≤ i) (upTo : 0 ≤ lenb ∧ lenb < i)
    (inside : lastscan + lenb ≤ scan ∧ lenb ≤ pos) (enough : scan + 1 - (lastscan + i) < fuel) (positive : 0 < fuel) :
    ∃ lenb', backwardLoop old new scan pos lastscan fuel i s Sb lenb = some lenb' ∧
      0 ≤ lenb' ∧ lastscan + lenb' ≤ scan ∧ lenb' ≤ pos := by
  induction fuel generalizing i s Sb lenb with
  | zero => omega
  | succ fuel ih =>
    rw [backwardLoop]
    by_cases more : scan ≥ lastscan + i ∧ pos ≥ i
    · obtain ⟨a,read⟩ := readByte_inside (b := old) (i := pos - i) (by omega) (by omega)
      obtain ⟨b,read'⟩ := readByte_inside (b := new) (i := scan - i) (by omega) (by omega)
      simp only [if_pos more,read,read',bind_eq_bind,bind_some]
      generalize (if a = b then s + 1 else s) = s
      split <;> exact ih _ _ _ _ (by omega) (by omega) (by omega) (by omega) (by omega)
    · exact ⟨lenb,by rw [if_neg more],by omega,by omega,by omega⟩

theorem overlapLoop_spec (old new : Bytes) (newF oldF newB oldB overlap : Int) (low : 0 ≤ newF ∧ 0 ≤ oldF ∧ 0 ≤ newB ∧ 0 ≤ oldB)
    (high : newF + overlap ≤ new.length ∧ oldF + overlap ≤ old.length ∧ newB + overlap ≤ new.length ∧ oldB + overlap ≤ old.length)
    (fuel : Nat) (i s Ss lens : Int) (start : 0 ≤ i) (inside : i ≤ overlap) (upTo : 0 ≤ lens ∧ lens ≤ i)
    (enough : overlap - i < fuel) :
    ∃ lens', overlapLoop old new newF oldF newB oldB overlap fuel i s Ss lens = some lens' ∧ 0 ≤ lens' ∧ lens' ≤ overlap := by
  induction fuel generalizing i s Ss lens with
  | zero => omega
  | succ fuel ih =>
    rw [overlapLoop]
    by_cases more : i < overlap
    · obtain ⟨a,readA⟩ := readByte_inside (b := new) (i := newF + i) (by omega) (by omega)
      obtain ⟨b,readB⟩ := readByte_inside (b := old) (i := oldF + i) (by omega) (by omega)
      obtain ⟨c,readC⟩ := readByte_inside (b := new) (i := newB + i) (by omega) (by omega)
      obtain ⟨d,readD⟩ := readByte_inside (b := old) (i := oldB + i) (by omega) (by omega)
      simp only [if_pos more,readA,readB,readC,readD,bind_eq_bind,bind_some]
      generalize (if c = d then (if a = b then s + 1 else s) - 1 else if a = b then s + 1 else s) = s
      split <;> exact ih _ _ _ _ (by omega) (by omega) (by omega) (by omega)
    · exact ⟨lens,by rw [if_neg more],upTo.1,by omega⟩

/-- What a triple starts from: the last one ended before the scan, inside both strings. -/
structure Started (old new : Bytes) (s : State) : Prop where
  lastscan : 0 ≤ s.lastscan ∧ s.lastscan ≤ s.scan
  lastpos : 0 ≤ s.lastpos ∧ s.lastpos ≤ old.length
  scan : s.scan ≤ new.length
  pos : 0 ≤ s.pos ∧ s.pos ≤ old.length

theorem extents_spec {s : State} (started : Started old new s) :
    ∃ lenf lenb, extents old new s = some (lenf, lenb) ∧ 0 ≤ lenf ∧ s.lastpos + lenf ≤ old.length ∧ 0 ≤ lenb ∧
      lenb ≤ s.pos ∧ s.lastscan + lenf ≤ s.scan - lenb ∧ (s.scan = new.length → lenb = 0) := by
  obtain ⟨lastscan,lastpos,upTo,valid⟩ := started
  obtain ⟨lenf,forward,lowF,highF,insideF⟩ := forwardLoop_spec old new lastscan.1 lastpos.1 upTo
    (new.length + 1) 0 0 0 0 (by omega) (by omega) (by omega) (by push_cast; omega)
  obtain ⟨lenb,backward,lowB,highB,insideB,ended⟩ : ∃ lenb,
      (if s.scan < new.length then backwardLoop old new s.scan s.pos s.lastscan (new.length + 1) 1 0 0 0 else some 0) =
        some lenb ∧ 0 ≤ lenb ∧ s.lastscan + lenb ≤ s.scan ∧ lenb ≤ s.pos ∧ (s.scan = new.length → lenb = 0) := by
    by_cases more : s.scan < new.length
    · obtain ⟨lenb,run,bounds⟩ := backwardLoop_spec old new lastscan.1 upTo valid.2 (new.length + 1) 1 0 0 0
        (by omega) (by omega) (by omega) (by push_cast; omega) (by omega)
      exact ⟨lenb,by rw [if_pos more,run],bounds.1,bounds.2.1,bounds.2.2,by omega⟩
    · exact ⟨0,by rw [if_neg more],by omega,by omega,by omega,fun _ => rfl⟩
  simp only [extents,forward,backward,bind_eq_bind,bind_some]
  by_cases overlaps : s.lastscan + lenf > s.scan - lenb
  · obtain ⟨lens,run,low,high⟩ := overlapLoop_spec old new
      (s.lastscan + lenf - (s.lastscan + lenf - (s.scan - lenb)))
      (s.lastpos + lenf - (s.lastscan + lenf - (s.scan - lenb))) (s.scan - lenb) (s.pos - lenb)
      (s.lastscan + lenf - (s.scan - lenb)) (by omega) (by omega) (new.length + 1) 0 0 0 0
      (by omega) (by omega) (by omega) (by push_cast; omega)
    rw [if_pos overlaps,run]
    exact ⟨_,_,rfl,by omega,by omega,by omega,by omega,by omega,by omega⟩
  · exact ⟨lenf,lenb,by rw [if_neg overlaps],lowF,by omega,lowB,insideB,by omega,ended⟩

/-! ## The triples -/

/-- Blocks that turn the old data into the part of the new data from `a` up to `b`; the
    place in the old data goes from `p` to `q`. -/
inductive Tiled (old new : Bytes) : Nat → Nat → Nat → Nat → Bytes → Bytes → Bytes → Prop where
  | nil (a p : Nat) : Tiled old new a p a p [] [] []
  | cons {a p x y p' b q : Nat} {z : Int} {ctrl diff db eb : Bytes} (low : p + x ≤ old.length) (high : a + x + y ≤ new.length)
      (moved : (p : Int) + x + z = p') (inside : p' ≤ old.length) (differs : diffBytes old new x a p = some diff)
      (rest : Tiled old new (a + x + y) p' b q ctrl db eb) :
      Tiled old new a p b q (offtout x ++ offtout y ++ offtout z ++ ctrl) (diff ++ db) ((new.drop (a + x)).take y ++ eb)

theorem tiled_append {a p b q c r : Nat} {ctrl db eb ctrl' db' eb' : Bytes} (first : Tiled old new a p b q ctrl db eb)
    (second : Tiled old new b q c r ctrl' db' eb') : Tiled old new a p c r (ctrl ++ ctrl') (db ++ db') (eb ++ eb') := by
  induction first with
  | nil => exact second
  | cons low high moved inside differs _ ih =>
    simp only [List.append_assoc]
    exact .cons low high moved inside differs (ih second)

theorem diffBytes_inside (old new : Bytes) {x a p : Nat} (low : p + x ≤ old.length) (high : a + x ≤ new.length) :
    ∃ diff, diffBytes old new x a p = some diff := by
  induction x generalizing a p with
  | zero => exact ⟨[],rfl⟩
  | succ x ih =>
    obtain ⟨n,read⟩ := readByte_inside (b := new) (i := a) (by omega) (by omega)
    obtain ⟨o,read'⟩ := readByte_inside (b := old) (i := p) (by omega) (by omega)
    obtain ⟨diff,rest⟩ := ih (a := a + 1) (p := p + 1) (by omega) (by omega)
    push_cast at rest
    exact ⟨(n - o) :: diff,by simp [diffBytes,read,read',rest]⟩

theorem emit_spec {s : State} (started : Started old new s) {a p : Nat} (scanned : s.lastscan = a) (placed : s.lastpos = p)
    (tiled : Tiled old new 0 0 a p s.ctrl s.db s.eb) :
    ∃ s', emit old new s = some s' ∧ s'.scan = s.scan ∧ s'.len = s.len ∧ s'.pos = s.pos ∧ s'.lastoffset = s.pos - s.scan ∧
      ∃ a' p' : Nat, s'.lastscan = a' ∧ s'.lastpos = p' ∧ p' ≤ old.length ∧ a' ≤ s.scan ∧
        (s.scan = new.length → a' = new.length) ∧ Tiled old new 0 0 a' p' s'.ctrl s'.db s'.eb := by
  have upTo := started.scan
  have valid := started.pos
  obtain ⟨lenf,lenb,run,lowF,highF,lowB,highB,apart,ended⟩ := extents_spec started
  obtain ⟨x,rfl⟩ := Int.eq_ofNat_of_zero_le lowF
  obtain ⟨y,extra⟩ := Int.eq_ofNat_of_zero_le (show 0 ≤ (s.scan - lenb) - (a + x) by omega)
  obtain ⟨p',moved⟩ := Int.eq_ofNat_of_zero_le (show 0 ≤ s.pos - lenb by omega)
  obtain ⟨diff,differs⟩ := diffBytes_inside old new (x := x) (a := a) (p := p) (by omega) (by omega)
  have covered : slice new ((a : Int) + x) y = some ((new.drop (a + x)).take y) := by
    have inside : a + x + y ≤ new.length := by omega
    exact_mod_cast slice_nat inside
  have more := tiled_append tiled (.cons (y := y) (by omega) (by omega)
    (show (p : Int) + x + (p' - (p + x)) = p' by omega) (by omega) differs (.nil (a + x + y) p'))
  simp only [List.append_nil] at more
  have emitted : emit old new s = some { s with
      lastscan := s.scan - lenb
      lastpos := p'
      lastoffset := s.pos - s.scan
      ctrl := s.ctrl ++ (offtout x ++ offtout y ++ offtout ((p' : Int) - (p + x)))
      db := s.db ++ diff
      eb := s.eb ++ (new.drop (a + x)).take y } := by
    simp only [emit,run,scanned,placed,extra,moved,Int.toNat_natCast,differs,covered,bind_eq_bind,
      bind_some]
  exact ⟨_,emitted,rfl,rfl,rfl,rfl,a + x + y,p',by dsimp only; omega,rfl,by omega,by omega,by omega,more⟩

/-! ## The outer loop -/

/-- What holds at the head of the outer loop. -/
structure Underway (old new : Bytes) (s : State) : Prop where
  tiled : ∃ a p : Nat, s.lastscan = a ∧ s.lastpos = p ∧ p ≤ old.length ∧ Tiled old new 0 0 a p s.ctrl s.db s.eb
  more : s.scan < new.length → 0 ≤ s.scan ∧ s.lastscan ≤ s.scan ∧ 0 ≤ s.len ∧ s.scan + s.len ≤ new.length ∧
    0 ≤ s.scan + s.len + s.lastoffset ∧ (s.scan + s.len < new.length ∨ (0 ≤ s.pos ∧ s.pos ≤ old.length))
  done : new.length ≤ s.scan → s.lastscan = new.length

theorem outerLoop_spec (indices : Indices old I) (fuel : Nat) {s : State} (underway : Underway old new s) (positive : 0 < fuel)
    (enough : s.scan < new.length → new.length - (s.scan + s.len) + 1 < fuel) :
    ∃ s' q, outerLoop I old new fuel s = some s' ∧ Tiled old new 0 0 new.length q s'.ctrl s'.db s'.eb := by
  induction fuel generalizing s with
  | zero => omega
  | succ fuel ih =>
    obtain ⟨a,p,scanned,placed,inside,tiled⟩ := underway.tiled
    rw [outerLoop]
    by_cases more : s.scan < new.length
    · obtain ⟨low,behind,lenLow,lenHigh,offset,known⟩ := underway.more more
      obtain ⟨found,run,sound⟩ := scanLoop_spec indices (show 0 ≤ s.scan + s.len by omega) offset
        (new.length + 1) (s.scan + s.len) ⟨s.scan + s.len,s.len,s.pos,0⟩ le_rfl lenHigh le_rfl known (.inl le_rfl) (by dsimp only; push_cast; omega)
      have after := sound.after
      have upTo := sound.upTo
      have valid := sound.pos
      have further := sound.further
      simp only [if_pos more,run,bind_eq_bind,bind_some]
      by_cases writes : found.len ≠ found.oldscore ∨ found.scan = new.length
      · have started : Started old new { s with scan := found.scan, len := found.len, pos := found.pos } :=
          ⟨by dsimp only; omega,by dsimp only; omega,upTo,valid⟩
        obtain ⟨s',emitted,scan',len',pos',offset',a',p',scanned',placed',inside',before,whole,tiled'⟩ :=
          emit_spec started scanned placed tiled
        dsimp only at scan' len' pos' offset' before whole
        rw [if_pos writes,emitted,bind_some]
        exact ih ⟨⟨a',p',scanned',placed',inside',tiled'⟩,by omega,by omega⟩ (by omega) (by omega)
      · rw [if_neg writes]
        exact ih ⟨⟨a,p,scanned,placed,inside,tiled⟩,by dsimp only; omega,by dsimp only; omega⟩ (by omega)
          (by dsimp only; omega)
    · have ended := underway.done (by omega)
      have whole : a = new.length := by omega
      exact ⟨s,p,by rw [if_neg more],by rw [← whole]; exact tiled⟩

/-- The blocks turn the old data into the new, for any array of indices of the old data. -/
theorem blocks_spec (indices : Indices old I) (pos : Int) (new : Bytes) :
    ∃ ctrl db eb q, blocks I pos old new = some (ctrl, db, eb) ∧ Tiled old new 0 0 new.length q ctrl db eb := by
  have underway : Underway old new ⟨0,0,pos,0,0,0,[],[],[]⟩ :=
    ⟨⟨0,0,rfl,rfl,by omega,.nil 0 0⟩,fun more => ⟨by simp,by simp,by simp,by simp,by simp,.inl (by simpa using more)⟩,
      fun done => by dsimp only at done ⊢; omega⟩
  obtain ⟨s,q,run,tiled⟩ := outerLoop_spec indices (new.length + 2) underway (by omega)
    (fun _ => by dsimp only; push_cast; omega)
  exact ⟨s.ctrl,s.db,s.eb,q,by rw [blocks,run]; rfl,tiled⟩

/-! ## Sizes -/

theorem emit_ctrl {s s' : State} (emitted : emit old new s = some s') : s'.ctrl.length = s.ctrl.length + 24 := by
  simp only [emit,bind_eq_bind,bind_eq_some_iff] at emitted
  obtain ⟨lens,_,diff,_,extra,_,same⟩ := emitted
  obtain rfl := some.inj same
  simp only [List.length_append,offtout_length]

theorem outerLoop_ctrl {fuel : Nat} {s s' : State} (run : outerLoop I old new fuel s = some s') :
    s'.ctrl.length ≤ s.ctrl.length + 24 * fuel := by
  induction fuel generalizing s with
  | zero => cases run
  | succ fuel ih =>
    rw [outerLoop] at run
    split at run
    · simp only [bind_eq_bind,bind_eq_some_iff] at run
      obtain ⟨found,_,run⟩ := run
      split at run
      · obtain ⟨next,emitted,run⟩ := bind_eq_some_iff.mp run
        have grown := emit_ctrl emitted
        have rest := ih run
        dsimp only at grown
        omega
      · have rest := ih run
        dsimp only at rest
        omega
    · obtain rfl := some.inj run
      omega

end Recovery.Scanning
