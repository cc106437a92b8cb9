import Recovery.Extract
import Recovery.ZipNames

/-!
Which entries `mzExtractRecursive` visits, and under which paths. The names with one
beginning stand together in the sorted list, so the loop may stop at the first other name
after them.
-/
namespace Recovery.ExtractPaths
open Memory Numbers Tracing Bisection DirUtil List
open ZipArchive ZipOrder ZipNames Extract

/-- The text of a C string whose size, with the terminator, fits in an `int`. -/
structure CText where
  text : Bytes
  terminated : 0 ∉ text
  short : text.length + 1 < 2 ^ 31

def slashed (dir : Bytes) : Bytes := if dir.getLast? = some slash then dir else dir ++ [slash]
/-- What the names in a directory of the archive begin with. -/
def nameStart (zipDir : Bytes) : Bytes := if zipDir = [] then [] else slashed zipDir
def targetPath (zipDir targetDir name : Bytes) : Bytes := slashed targetDir ++ name.drop (nameStart zipDir).length

/-! ## Names with one beginning -/

private theorem prefix_between {K : Type} [LinearOrder K] {p x y z : List K} (above : x ≤ y) (below : y ≤ z) (first : p <+: x)
    (last : p <+: z) : p <+: y := by
  induction p generalizing x y z with
  | nil => exact List.nil_prefix
  | cons k p ih =>
    obtain ⟨x,rfl⟩ := first
    obtain ⟨z,rfl⟩ := last
    rw [cons_append] at above below
    cases y with
    | nil => exact absurd (nil_lt_cons k (p ++ x)) (not_lt.mpr above)
    | cons h y =>
      have above := not_lt.mpr above
      have below := not_lt.mpr below
      rw [cons_lt_cons_iff] at above below
      obtain rfl : h = k := le_antisymm (not_lt.mp fun less => below (.inl less)) (not_lt.mp fun less => above (.inl less))
      refine cons_prefix_cons.mpr ⟨rfl,ih ?_ ?_ (prefix_append p x) (prefix_append p z)⟩
      · exact not_lt.mp fun less => above (.inr ⟨rfl,less⟩)
      · exact not_lt.mp fun less => below (.inr ⟨rfl,less⟩)

theorem rank_starts {p x : Bytes} : rank p <+: rank x ↔ p <+: x :=
  prefix_map_iff_of_injective fun _ _ => UInt8.toNat.inj

/-! ## The path buffer -/

theorem except_bind_ok {α β : Type} {x : Except Break α} {f : α → Except Break β} {b : β} :
    (x >>= f) = .ok b ↔ ∃ a, x = .ok a ∧ f a = .ok b := by
  cases x with
  | ok a => exact ⟨fun done => ⟨a,rfl,done⟩,fun ⟨_,same,done⟩ => by cases same; exact done⟩
  | error e => exact ⟨nofun,nofun⟩

variable {buf : Bytes} {helper helper' : MzPathHelper}

theorem memcpy_ok {data buf' : Bytes} {dest : Int} (copied : memcpy buf dest data = .ok buf') :
    0 ≤ dest ∧ dest.toNat + data.length ≤ buf.length ∧ buf'.length = buf.length ∧
      buf'.take (dest.toNat + data.length) = buf.take dest.toNat ++ data := by
  unfold memcpy at copied
  split at copied
  · rename_i inside
    cases copied
    have length : (buf.take dest.toNat ++ data).length = dest.toNat + data.length := by
      simp only [length_append,length_take]
      omega
    refine ⟨inside.1,by omega,?_,?_⟩
    · simp only [length_append,length_take,length_drop]
      omega
    · rw [← length,take_left]
  · cases copied

theorem not_terminator {text : Bytes} (terminated : 0 ∉ text) : ∀ b ∈ text, decide (b ≠ 0) = true :=
  fun _ member => decide_eq_true fun zero => terminated (zero ▸ member)
private theorem cString_append {text more : Bytes} (terminated : 0 ∉ text) : cString (text ++ 0 :: more) = text := by
  unfold cString
  rw [takeWhile_append_of_pos (not_terminator terminated)]
  simp
theorem cString_text {text : Bytes} (terminated : 0 ∉ text) : cString text = text := by
  have whole : (text ++ []).takeWhile (fun b => decide (b ≠ 0)) = text ++ [].takeWhile _ :=
    takeWhile_append_of_pos (not_terminator terminated)
  rwa [append_nil,takeWhile_nil,append_nil] at whole

theorem length_grow (fresh : Nat → UInt8) (buf : Option Bytes) (len : Nat) : (grow fresh buf len).length = len := by
  simp [grow]
theorem take_grow (fresh : Nat → UInt8) (buf : Bytes) {len k : Nat} (kept : k ≤ buf.length) (more : k ≤ len) :
    (grow fresh (some buf) len).take k = buf.take k := by
  apply ext_getElem
  · simp only [grow,length_take,length_map,length_range]
    omega
  · intro i less _
    simp only [length_take] at less
    simp [grow,show i < buf.length by omega]

structure Helper (zipDir targetDir : Bytes) (helper : MzPathHelper) : Prop where
  zipDirLen : helper.zipDirLen = (nameStart zipDir).length
  buffer : (helper.buf = none ∧ helper.bufLen = 0 ∧ helper.targetDir = targetDir ∧ helper.targetDirLen = targetDir.length) ∨
    ∃ buf, helper.buf = some buf ∧ helper.bufLen = buf.length ∧ helper.targetDirLen = (slashed targetDir).length ∧
      (slashed targetDir).length ≤ buf.length ∧ buf.take (slashed targetDir).length = slashed targetDir

theorem slashed_terminated {dir : Bytes} (terminated : 0 ∉ dir) : 0 ∉ slashed dir := by
  unfold slashed slash
  split
  · exact terminated
  · simp [terminated]

private theorem startPath_ok {buf' : Bytes} (length : helper.targetDirLen = helper.targetDir.length)
    (started : startPath true helper buf = .ok (helper', buf')) :
    helper' = { helper with targetDirLen := (slashed helper.targetDir).length } ∧ buf'.length = buf.length ∧
      (slashed helper.targetDir).length ≤ buf.length ∧
      buf'.take (slashed helper.targetDir).length = slashed helper.targetDir := by
  unfold startPath at started
  rw [if_neg (by decide),if_neg (by omega),length] at started
  simp only [Int.toNat_natCast,take_length] at started
  obtain ⟨copied,first,rest⟩ := except_bind_ok.mp started
  obtain ⟨-,inside,same,beginning⟩ := memcpy_ok first
  simp only [Int.toNat_zero,take_zero,nil_append,Nat.zero_add] at inside beginning
  have last : ((helper.targetDir.length : Int) = 0 ∨ copied.getD (helper.targetDir.length - 1) 0 ≠ slash) ↔
      helper.targetDir.getLast? ≠ some slash := by
    rw [getLast?_eq_getElem?]
    rcases Nat.eq_zero_or_pos helper.targetDir.length with none | some
    · simp [length_eq_zero_iff.mp none]
    have same : (copied.take helper.targetDir.length)[helper.targetDir.length - 1]? =
        helper.targetDir[helper.targetDir.length - 1]? := by rw [beginning]
    rw [getElem?_take_of_lt (by omega)] at same
    rw [getD_eq_getElem?_getD,same,getElem?_eq_getElem (by omega)]
    simp [show helper.targetDir ≠ [] from length_pos_iff.mp some]
  unfold slashed
  by_cases ends : helper.targetDir.getLast? = some slash
  · rw [if_neg (fun starts => last.mp starts ends)] at rest
    cases rest
    rw [if_pos ends]
    refine ⟨?_,same,inside,beginning⟩
    rw [← length]
  · rw [if_pos (last.mpr ends)] at rest
    obtain ⟨copied',second,rest⟩ := except_bind_ok.mp rest
    obtain ⟨-,inside',same',beginning'⟩ := memcpy_ok second
    cases rest
    rw [Int.toNat_natCast,beginning,length_singleton] at *
    rw [if_neg ends,length_append,length_singleton]
    exact ⟨by simp,by omega,by omega,beginning'⟩

theorem endPath_ok {zipDir targetDir name path : Bytes} (nameText : 0 ∉ name) (targetText : 0 ∉ targetDir)
    (zipDirLen : helper.zipDirLen = (nameStart zipDir).length)
    (bufLen : helper.bufLen = buf.length) (targetDirLen : helper.targetDirLen = (slashed targetDir).length)
    (beginning : buf.take (slashed targetDir).length = slashed targetDir)
    (found : endPath helper buf name = .ok (path, helper')) :
    path = targetPath zipDir targetDir name ∧ Helper zipDir targetDir helper' := by
  have restText : 0 ∉ name.drop (nameStart zipDir).length := fun member => nameText (mem_of_mem_drop member)
  have dirText := slashed_terminated targetText
  unfold endPath at found
  dsimp only at found
  rw [zipDirLen,targetDirLen,Int.toNat_natCast,← Nat.cast_add] at found
  obtain ⟨copied,first,found⟩ := except_bind_ok.mp found
  obtain ⟨ended,second,found⟩ := except_bind_ok.mp found
  obtain ⟨-,inside,same,copiedRest⟩ := memcpy_ok first
  obtain ⟨-,inside',same',terminated⟩ := memcpy_ok second
  rw [Int.toNat_natCast] at inside copiedRest inside' terminated
  rw [copiedRest,beginning,length_singleton] at terminated
  cases found
  have whole : ended = (slashed targetDir ++ name.drop (nameStart zipDir).length) ++
      0 :: ended.drop ((slashed targetDir).length + (name.drop (nameStart zipDir).length).length + 1) := by
    conv_lhs => rw [← take_append_drop ((slashed targetDir).length + (name.drop (nameStart zipDir).length).length + 1) ended,
      terminated]
    rw [append_assoc _ [0]]
    rfl
  have text : 0 ∉ slashed targetDir ++ name.drop (nameStart zipDir).length := by simp [dirText,restText]
  refine ⟨?_,rfl,.inr ⟨ended,rfl,?_,rfl,by omega,?_⟩⟩
  · rw [whole,cString_append text]
    rfl
  · rw [same',same]
    exact bufLen
  · rw [whole,append_assoc,take_left]

private theorem wrap_nonneg {x : Int} (positive : 0 ≤ x) (below : x < 2 ^ 32) (result : 0 ≤ wrap 32 x) : wrap 32 x = x := by
  unfold wrap at *
  rw [Int.bmod_def] at *
  split at result <;> omega
theorem growPath_ok {realloc : Bool} {fresh : Nat → UInt8} {grown : MzPathHelper} {needLen : Int}
    (start : 0 ≤ helper.bufLen) (fits : needLen < 2 ^ 31) (sized : growPath realloc fresh helper needLen = .ok grown) :
    grown = helper ∨ ∃ len : Nat, helper.bufLen < len ∧
      grown = { helper with buf := some (grow fresh helper.buf len), bufLen := len } := by
  unfold growPath at sized
  split at sized
  · rename_i more
    dsimp only at sized
    split at sized
    · rename_i room
      cases sized
      have doubled := wrap_nonneg (by omega) (by omega) room.2
      refine .inr ⟨(wrap 32 (needLen * 2)).toNat,by omega,?_⟩
      rw [Int.toNat_of_nonneg room.2]
    · cases sized
  · cases sized
    exact .inl rfl

theorem targetEntryPath_ok {zipDir targetDir name : Bytes} (nameText : 0 ∉ name) (targetText : 0 ∉ targetDir)
    (held : Helper zipDir targetDir helper) {realloc : Bool} {fresh : Nat → UInt8}
    {path : Bytes} (found : targetEntryPath realloc fresh helper name = .ok (path, helper')) :
    path = targetPath zipDir targetDir name ∧ Helper zipDir targetDir helper' := by
  obtain ⟨grown,sized,rest⟩ := except_bind_ok.mp found
  obtain ⟨zipDirLen,buffer⟩ := held
  rcases buffer with ⟨none,empty,dir,length⟩ | ⟨buf,some,bufLen,targetDirLen,inside,beginning⟩
  · obtain same | ⟨len,more,same⟩ := growPath_ok (by omega) (wrap_lt _) sized
    · rw [same,none] at rest
      cases rest
    rw [none] at rest same
    subst same
    obtain ⟨⟨started,copied⟩,first,last⟩ := except_bind_ok.mp rest
    obtain ⟨rfl,size,inside,beginning⟩ := startPath_ok (by rw [dir]; exact length) first
    rw [length_grow] at size
    rw [dir] at beginning last
    refine endPath_ok nameText targetText ?_ ?_ ?_ beginning last
    · exact zipDirLen
    · rw [size]
    · rfl
  · obtain rfl | ⟨len,more,rfl⟩ := growPath_ok (by omega) (wrap_lt _) sized
    · rw [some] at rest
      exact endPath_ok nameText targetText zipDirLen bufLen targetDirLen beginning rest
    rw [some] at rest
    refine endPath_ok nameText targetText ?_ ?_ ?_ ?_ rest
    · exact zipDirLen
    · rw [length_grow]
    · exact targetDirLen
    · rw [take_grow fresh buf inside (by omega),beginning]

/-! ## The loop -/

section
variable {T : Type} {abi : Abi} {mem : Mem} {file : Bytes} {flags : Flags} {timestamp : Option T} {callback : Bool}
variable {answers : Nat → Answers T}

theorem name_text {e : ZipEntry} (named : Named abi mem e) : 0 ∉ e.name abi mem :=
  fun member => Valid.text abi mem named 0 member rfl

private theorem not_differs_iff {e : ZipEntry} (named : Named abi mem e) {zpath : Bytes} (text : 0 ∉ zpath) :
    differs (e.name abi mem) zpath zpath.length = false ↔ zpath <+: e.name abi mem := by
  have taken : 0 ∉ (e.name abi mem).take zpath.length := fun member => name_text named (mem_of_mem_take member)
  unfold differs
  rw [cString_text taken,take_length,cString_text text,prefix_iff_eq_take,decide_eq_false_iff_not,not_not,
    eq_comm]

variable (abi mem file flags timestamp callback answers) in
/-- The loop without its tests, over the entries that pass them, each with its index. -/
def visitAll (helper : MzPathHelper) : List (ZipEntry × Nat) → Walk T
  | [] => ⟨none, []⟩
  | (pEntry, i) :: rest => visit abi mem file flags timestamp callback answers helper pEntry i fun helper => visitAll helper rest

variable (abi mem) in
def hits (start : Bytes) (i : Nat) (es : List ZipEntry) : List (ZipEntry × Nat) :=
  (es.zipIdx i).filter fun (e, _) => start.isPrefixOf (e.name abi mem)

variable {es : List ZipEntry} {zipDir : Bytes}

private theorem hits_cons_of_prefix {start : Bytes} {i : Nat} {e : ZipEntry} (begins : start <+: e.name abi mem) :
    hits abi mem start i (e :: es) = (e, i) :: hits abi mem start (i + 1) es := by
  have test : start.isPrefixOf (e.name abi mem) = true := List.isPrefixOf_iff_prefix.mpr begins
  simp [hits,zipIdx_cons,test]
private theorem hits_cons_of_not {start : Bytes} {i : Nat} {e : ZipEntry} (other : ¬ start <+: e.name abi mem) :
    hits abi mem start i (e :: es) = hits abi mem start (i + 1) es := by
  have test : ¬ start.isPrefixOf (e.name abi mem) = true := fun begins => other (List.isPrefixOf_iff_prefix.mp begins)
  simp [hits,zipIdx_cons,test]

private theorem hits_after {start : Bytes} {i : Nat} {e : ZipEntry} {seen : List Nat}
    (sorted : Sorted (nameRank abi mem) (e :: es)) (begins : rank start <+: seen) (above : seen ≤ nameRank abi mem e)
    (other : ¬ start <+: e.name abi mem) : hits abi mem start i (e :: es) = [] := by
  have later := (pairwise_cons.mp sorted).1
  rw [hits,filter_eq_nil_iff]
  rintro ⟨f,j⟩ member found
  rw [List.isPrefixOf_iff_prefix,← rank_starts] at found
  refine other (rank_starts.mp ?_)
  rcases mem_cons.mp (fst_mem_of_mem_zipIdx member) with same | known
  · rw [show f = e from same] at found
    exact found
  · exact prefix_between above (later f known) begins found

theorem walk_eq_visitAll {zpath : Bytes} (text : 0 ∉ zpath) (named : ∀ e ∈ es, Named abi mem e)
    (sorted : Sorted (nameRank abi mem) es) {helper : MzPathHelper} {seenMatch : Bool} {i : Nat}
    (seen : seenMatch = true → ∃ first, rank zpath <+: first ∧ ∀ e ∈ es, first ≤ nameRank abi mem e) :
    walk abi mem file flags timestamp callback answers zpath zpath.length helper seenMatch i es =
      visitAll abi mem file flags timestamp callback answers helper (hits abi mem zpath i es) := by
  induction es generalizing helper seenMatch i with
  | nil => rfl
  | cons e es ih =>
    have sortedRest := (pairwise_cons.mp sorted).2
    have namedRest : ∀ f ∈ es, Named abi mem f := fun f member => named f (mem_cons_of_mem _ member)
    -- what the loop does with an entry that has not the beginning
    have passes (other : ¬ zpath <+: e.name abi mem) :
        (if seenMatch = true then ⟨none,[]⟩
          else walk abi mem file flags timestamp callback answers zpath zpath.length helper seenMatch (i + 1) es) =
        visitAll abi mem file flags timestamp callback answers helper (hits abi mem zpath i (e :: es)) := by
      cases seenMatch with
      | true =>
        obtain ⟨first,begins,above⟩ := seen rfl
        rw [hits_after sorted begins (above e mem_cons_self) other]
        rfl
      | false =>
        rw [hits_cons_of_not other]
        exact ih namedRest sortedRest (by simp)
    unfold walk
    by_cases long : e.fileNameLen < zpath.length
    · rw [if_pos long]
      refine passes fun begins => ?_
      have := begins.length_le
      rw [length_name] at this
      omega
    · rw [if_neg long]
      have test := not_differs_iff (named e mem_cons_self) text
      by_cases begins : zpath <+: e.name abi mem
      · rw [test.mpr begins,if_neg (by decide), hits_cons_of_prefix begins,visitAll]
        have seen' : true = true → ∃ first, rank zpath <+: first ∧ ∀ f ∈ es, first ≤ nameRank abi mem f :=
          fun _ => ⟨nameRank abi mem e,rank_starts.mpr begins,(pairwise_cons.mp sorted).1⟩
        simp only [ih namedRest sortedRest seen']
      · rw [Bool.eq_true_of_not_eq_false fun same => begins (test.mp same),if_pos rfl]
        exact passes begins

theorem mem_hits {start : Bytes} {i : Nat} {h : ZipEntry × Nat} (member : h ∈ hits abi mem start i es) :
    h.1 ∈ es := fst_mem_of_mem_zipIdx (mem_filter.mp member).1

theorem visit_cases (answers : Nat → Answers T) (helper : MzPathHelper) (e : ZipEntry) (i : Nat) (later : MzPathHelper → Walk T) :
    (∃ reason, targetEntryPath (answers i).realloc (answers i).fresh helper (e.name abi mem) = .error reason ∧
      visit abi mem file flags timestamp callback answers helper e i later = ⟨some reason,[]⟩) ∨
    ∃ path helper', targetEntryPath (answers i).realloc (answers i).fresh helper (e.name abi mem) = .ok (path, helper') ∧
      ((∃ reason, (extractEntry abi mem file flags timestamp callback (answers i) e path).result = .error reason ∧
        visit abi mem file flags timestamp callback answers helper e i later =
          ⟨some reason,[⟨i,path,(extractEntry abi mem file flags timestamp callback (answers i) e path).trace⟩]⟩) ∨
      ((extractEntry abi mem file flags timestamp callback (answers i) e path).result = .ok () ∧
        visit abi mem file flags timestamp callback answers helper e i later =
          ⟨(later helper').left,⟨i,path,(extractEntry abi mem file flags timestamp callback (answers i) e path).trace⟩ ::
            (later helper').visits⟩)) := by
  unfold visit
  cases targetEntryPath (answers i).realloc (answers i).fresh helper (e.name abi mem) with
  | error reason => exact .inl ⟨reason,rfl,rfl⟩
  | ok r =>
    refine .inr ⟨r.1,r.2,rfl,?_⟩
    dsimp only
    cases (extractEntry abi mem file flags timestamp callback (answers i) e r.1).result with
    | error reason => exact .inl ⟨reason,rfl,rfl⟩
    | ok _ => exact .inr ⟨rfl,rfl⟩

theorem visitAll_paths {targetDir : Bytes} (targetText : 0 ∉ targetDir) {hs : List (ZipEntry × Nat)}
    (named : ∀ h ∈ hs, Named abi mem h.1) {helper : MzPathHelper} (held : Helper zipDir targetDir helper)
    (clean : (visitAll abi mem file flags timestamp callback answers helper hs).left = none) :
    (visitAll abi mem file flags timestamp callback answers helper hs).visits.map (fun v => (v.index, v.targetFile)) =
      hs.map fun h => (h.2, targetPath zipDir targetDir (h.1.name abi mem)) := by
  induction hs generalizing helper with
  | nil => rfl
  | cons h hs ih =>
    have nameText := name_text (named h mem_cons_self)
    rw [visitAll] at clean ⊢
    rcases visit_cases answers helper h.1 h.2 (fun helper => visitAll abi mem file flags timestamp callback answers helper hs) with
      ⟨reason,-,visited⟩ | ⟨path,helper',found,⟨reason,-,visited⟩ | ⟨-,visited⟩⟩
    · rw [visited] at clean
      cases clean
    · rw [visited] at clean
      cases clean
    · obtain ⟨rfl,held'⟩ := targetEntryPath_ok nameText targetText held found
      rw [visited] at clean ⊢
      rw [map_cons,map_cons,ih (fun f member => named f (mem_cons_of_mem _ member)) held' clean]

theorem zpath_eq : (if zipDir.length > 0 ∧ zipDir.getLast? ≠ some slash then zipDir ++ [slash] else zipDir) =
    nameStart zipDir := by
  unfold nameStart slashed
  cases zipDir with
  | nil => rfl
  | cons b rest => by_cases ends : (b :: rest).getLast? = some slash <;> simp [ends]

theorem length_nameStart (zipDir : Bytes) : (nameStart zipDir).length ≤ zipDir.length + 1 := by
  unfold nameStart slashed
  split
  · simp
  · split <;> simp
theorem nameStart_terminated (terminated : 0 ∉ zipDir) : 0 ∉ nameStart zipDir := by
  unfold nameStart
  split
  · simp
  · exact slashed_terminated terminated

/-- What `mzExtractRecursive` comes to for an archive that was accepted. -/
theorem mzExtractRecursive_eq (malloc : Bool) {archive : Archive} (count : archive.pEntries.length = archive.numEntries)
    (named : ∀ e ∈ archive.pEntries, Named abi mem e) (sorted : Sorted (nameRank abi mem) archive.pEntries)
    (zipDir targetDir : CText) :
    mzExtractRecursive abi mem file flags timestamp callback malloc answers archive zipDir.text targetDir.text =
        ⟨some .failed,[]⟩ ∨
      ∃ helper, Helper zipDir.text targetDir.text helper ∧
        mzExtractRecursive abi mem file flags timestamp callback malloc answers archive zipDir.text targetDir.text =
          visitAll abi mem file flags timestamp callback answers helper
            (hits abi mem (nameStart zipDir.text) 0 archive.pEntries) := by
  have zipShort := zipDir.short
  have targetShort := targetDir.short
  have longest := length_nameStart zipDir.text
  have length : unsigned 32 zipDir.text.length = zipDir.text.length := unsigned_small (by omega)
  have zipWrap : wrap 32 (nameStart zipDir.text).length = (nameStart zipDir.text).length :=
    wrap_small (by omega) (by omega)
  have targetWrap : wrap 32 targetDir.text.length = targetDir.text.length := wrap_small (by omega) (by omega)
  unfold mzExtractRecursive
  split
  · exact .inl rfl
  split
  · exact .inl rfl
  dsimp only
  rw [length,take_length,zpath_eq,← count,take_length]
  split
  · exact .inl rfl
  rw [if_neg (by omega)]
  have held : Helper zipDir.text targetDir.text ⟨targetDir.text,none,wrap 32 targetDir.text.length,
      wrap 32 (nameStart zipDir.text).length,0⟩ := by
    constructor
    · dsimp only
      exact zipWrap
    · left
      dsimp only
      exact ⟨rfl,rfl,rfl,targetWrap⟩
  exact .inr ⟨_,held,walk_eq_visitAll (nameStart_terminated zipDir.terminated) named sorted (by simp)⟩

end

/-- `mzExtractRecursive`, when nothing fails: it visits the entries whose names begin with the
    directory and a slash, each once and in order, and each gets the target directory, a
    slash and the rest of its name as its path. -/
theorem recursive_visits_directory {T : Type} (abi : Abi) (mem : Mem) (S : SafeIop abi) (map : MemMapping) (room : Bool)
    (calloc : Nat → Bool) (archive : Archive) (parsed : (parseZipArchive abi mem S map room calloc).result = .ok archive)
    (file : Bytes) (flags : Flags) (timestamp : Option T) (callback malloc : Bool) (answers : Nat → Answers T)
    (zipDir targetDir : CText) (clean : (mzExtractRecursive abi mem file flags timestamp callback malloc answers archive
      zipDir.text targetDir.text).left = none) :
    (mzExtractRecursive abi mem file flags timestamp callback malloc answers archive zipDir.text targetDir.text).visits.map
        (fun v => (v.index, v.targetFile)) =
      (hits abi mem (nameStart zipDir.text) 0 archive.pEntries).map fun h =>
        (h.2, targetPath zipDir.text targetDir.text (h.1.name abi mem)) := by
  obtain ⟨cdOffset, -, -, listed, -⟩ := parseZipArchive_returns parsed
  have count : archive.pEntries.length = archive.numEntries := by rw [listed.count, length_records]
  rcases mzExtractRecursive_eq malloc count listed.named listed.sorted zipDir targetDir with
    refused | ⟨helper, held, same⟩
  · rw [refused] at clean
    cases clean
  · rw [same] at clean ⊢
    exact visitAll_paths targetDir.terminated (fun h member => listed.named _ (mem_hits member)) held clean

/-! ## A directory with one file, and one with files around it -/

def localNamed (name : Bytes) : Bytes := [0x50, 0x4b, 3, 4] ++ zeros 22 ++ leBytes 2 name.length ++ [0, 0] ++ name
def centralAt (name : Bytes) (compLen offset : Nat) : Bytes :=
  [0x50, 0x4b, 1, 2] ++ zeros 16 ++ leBytes 4 compLen ++ zeros 4 ++ leBytes 2 name.length ++ zeros 12 ++ leBytes 4 offset ++
    name
def centralNamed (name : Bytes) (compLen : Nat) : Bytes := centralAt name compLen 0

def oneFile : Bytes := localNamed [97, 47, 98] ++ centralNamed [97, 47, 98] 0 ++ endHeader 1 33
def oneFileMem : Mem := memoryAt 4096 oneFile
def oneFileParsed : Except Stop Archive :=
  (parseZipArchive lp64 oneFileMem (safeIop lp64) ⟨4096, 104⟩ true fun n => n * 32 < 2 ^ 64).result

def idle : Inflater := ⟨Unit, some (), fun _ _ _ _ => ((), 0, []), by simp, by simp⟩
def working (io : List Int) : Answers Unit :=
  { realloc := true, fresh := fun _ => 0, dir := ⟨true, fun _ => .directory, fun _ => true, fun _ _ => true⟩,
    malloc := true, symlink := true, creat := true, oldOff := 0, zlib := idle, io, utime := true }

def extractOneFile (archive : Archive) (zipDir targetDir : Bytes) : Walk Unit :=
  mzExtractRecursive lp64 oneFileMem oneFile ⟨false, false⟩ none false true (fun _ => working []) archive zipDir targetDir

/-- `A`, `a/b`, `a/cd` and `b`. -/
def fourFiles : Bytes :=
  localNamed [65] ++ localNamed [97, 47, 98] ++ localNamed [97, 47, 99, 100] ++ localNamed [98] ++ centralAt [65] 0 0 ++
    centralAt [97, 47, 98] 0 31 ++ centralAt [97, 47, 99, 100] 0 64 ++ centralAt [98] 0 98 ++ endHeader 4 129
def fourFilesMem : Mem := memoryAt 4096 fourFiles
def fourFilesParsed : Except Stop Archive :=
  (parseZipArchive lp64 fourFilesMem (safeIop lp64) ⟨4096, 344⟩ true fun n => n * 32 < 2 ^ 64).result
def extractFourFiles (archive : Archive) : Walk Unit :=
  mzExtractRecursive lp64 fourFilesMem fourFiles ⟨false, false⟩ none false true (fun _ => working []) archive [97] [47, 116]

/-- The names before the directory are skipped, and the loop is left at the first one behind it. -/
theorem recursive_visits_directory_of_fourFiles : ∃ archive, fourFilesParsed = .ok archive ∧
    archive.pEntries.length = 4 ∧ (extractFourFiles archive).visits.length = 2 ∧
    (extractFourFiles archive).visits.map (fun v => (v.index, v.targetFile)) =
      (hits lp64 fourFilesMem [97, 47] 0 archive.pEntries).map fun h =>
        (h.2, targetPath [97] [47, 116] (h.1.name lp64 fourFilesMem)) := by
  have accepted : (fourFilesParsed.map fun archive => ((extractFourFiles archive).left, archive.pEntries.length,
      (extractFourFiles archive).visits.length)) = .ok (none, 4, 2) := by decide +kernel
  cases parsed : fourFilesParsed with
  | error reason =>
    rw [parsed] at accepted
    cases accepted
  | ok archive =>
    rw [parsed] at accepted
    obtain ⟨left, entries, visits⟩ : _ ∧ _ ∧ _ := by simpa [Except.map] using accepted
    exact ⟨archive, rfl, entries, visits, recursive_visits_directory lp64 fourFilesMem (safeIop lp64) ⟨4096, 344⟩ true
      (fun n => n * 32 < 2 ^ 64) archive parsed fourFiles ⟨false, false⟩ none false true (fun _ => working [])
      ⟨[97], by decide, by decide⟩ ⟨[47, 116], by decide, by decide⟩ left⟩

/-- A directory that ends in a slash gets no other one: `a/b` is extracted for `a/`, and its
    path in `/t/` is `/t/b`. -/
theorem trailing_slash_kept : ∃ archive, oneFileParsed = .ok archive ∧
    (extractOneFile archive [97, 47] [47, 116, 47]).left = none ∧
    (extractOneFile archive [97, 47] [47, 116, 47]).visits.map (fun v => (v.index, v.targetFile)) = [(0, [47, 116, 47, 98])] ∧
    ∀ e ∈ archive.pEntries, ¬ [97, 47] ++ [slash] <+: e.name lp64 oneFileMem := by
  have accepted : (oneFileParsed.map fun archive => ((extractOneFile archive [97, 47] [47, 116, 47]).left,
      (extractOneFile archive [97, 47] [47, 116, 47]).visits.map (fun v => (v.index, v.targetFile)),
      archive.pEntries.all fun e => !([97, 47] ++ [slash]).isPrefixOf (e.name lp64 oneFileMem))) =
        .ok (none, [(0, [47, 116, 47, 98])], true) := by decide +kernel
  cases parsed : oneFileParsed with
  | error reason =>
    rw [parsed] at accepted
    cases accepted
  | ok archive =>
    rw [parsed] at accepted
    obtain ⟨left, rest⟩ := Prod.mk.inj (Except.ok.inj accepted)
    obtain ⟨visits, names⟩ := Prod.mk.inj rest
    refine ⟨archive, rfl, left, visits, fun e member begins => ?_⟩
    have other := all_eq_true.mp names e member
    rw [List.isPrefixOf_iff_prefix.mpr begins] at other
    cases other

end Recovery.ExtractPaths
