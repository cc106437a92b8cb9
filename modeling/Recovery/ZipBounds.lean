import Recovery.ZipNames

/-!
Where `parseZipArchive` reads.
-/
namespace Recovery.ZipBounds
open Memory Numbers Minzip Hash Tracing Tracing.Traced List
open ZipArchive ZipOrder ZipNames Bisection

/-! ## Maps -/

/-- A map of a file: not at the null pointer, its end is a pointer, it is long enough for
    the end record, and it leaves the program half a megabyte. -/
structure Mapped (abi : Abi) (map : MemMapping) : Prop where
  start : 2 ^ 12 ≤ map.addr
  limit : map.addr + map.length < 2 ^ abi.bits
  size : ENDHDR ≤ map.length
  room : map.length + 2 ^ 19 ≤ 2 ^ abi.bits

def Inside (map : MemMapping) (a : Nat) : Prop := map.addr ≤ a ∧ a < map.addr + map.length

section
variable {abi : Abi} {mem : Mem} {map : MemMapping}

theorem ptr_small {a : Nat} (small : a < 2 ^ abi.bits) : abi.ptr a = a := Nat.mod_eq_of_lt small
theorem ptr_add (a c : Nat) : abi.ptr (abi.ptr a + c) = abi.ptr (a + c) := Nat.mod_add_mod a _ c
private theorem limit_eq (mapped : Mapped abi map) : map.limit abi = map.addr + map.length := ptr_small mapped.limit

theorem ptr_wrapped (mapped : Mapped abi map) {x : Nat} (less : x < 2 ^ abi.bits) (wraps : 2 ^ abi.bits ≤ map.addr + x) :
    abi.ptr (map.addr + x) < map.addr := by
  have limit := mapped.limit
  have : abi.ptr (map.addr + x) = map.addr + x - 2 ^ abi.bits := by
    rw [Abi.ptr,Nat.mod_eq_sub_mod wraps,Nat.mod_eq_of_lt (by omega)]
  omega
theorem inside_iff (mapped : Mapped abi map) {x : Nat} (less : x < 2 ^ abi.bits) :
    Inside map (abi.ptr (map.addr + x)) ↔ x < map.length := by
  have limit := mapped.limit
  unfold Inside
  by_cases wraps : 2 ^ abi.bits ≤ map.addr + x
  · have := ptr_wrapped mapped less wraps
    omega
  · rw [ptr_small (by omega)]
    omega
theorem not_past_iff (mapped : Mapped abi map) {x : Nat} (less : x < 2 ^ abi.bits) :
    ¬ abi.ptr (map.addr + x) > map.limit abi ↔ x ≤ map.length ∨ 2 ^ abi.bits ≤ map.addr + x := by
  rw [limit_eq mapped]
  by_cases wraps : 2 ^ abi.bits ≤ map.addr + x
  · have := ptr_wrapped mapped less wraps
    omega
  · rw [ptr_small (by omega)]
    omega

/-! ## Reads at an offset -/

theorem load_ptr (a c : Nat) : load abi mem (abi.ptr a + c) = load abi mem (a + c) := by
  unfold load
  rw [ptr_add]

variable {I : Nat → Prop} {β : Type} {es : List ZipEntry}

theorem within_load {a : Nat} : Within I (load abi mem a) ↔ I (abi.ptr a) := by
  simp [Within,load_trace]
theorem within_load2LE {a : Nat} : Within I (load2LE abi mem a) ↔ ∀ c < 2, I (abi.ptr (a + c)) := by
  simp only [Nat.forall_lt_succ_right]
  simp [Within,load2LE_trace]
theorem within_load4LE {a : Nat} : Within I (load4LE abi mem a) ↔ ∀ c < 4, I (abi.ptr (a + c)) := by
  simp only [Nat.forall_lt_succ_right]
  simp [Within,load4LE_trace,and_assoc]

private theorem load2LE_inside (mapped : Mapped abi map) {x : Nat} (inside : x + 2 ≤ map.length) :
    Within (Inside map) (load2LE abi mem (map.addr + x)) := by
  have limit := mapped.limit
  rw [within_load2LE]
  intro c less
  rw [add_assoc,inside_iff mapped (by omega)]
  omega
private theorem load4LE_inside (mapped : Mapped abi map) {x : Nat} (inside : x + 4 ≤ map.length) :
    Within (Inside map) (load4LE abi mem (map.addr + x)) := by
  have limit := mapped.limit
  rw [within_load4LE]
  intro c less
  rw [add_assoc,inside_iff mapped (by omega)]
  omega
theorem load4LE_outside (mapped : Mapped abi map) {x : Nat} (less : x + 4 ≤ 2 ^ abi.bits) (outside : map.length < x + 4) :
    ¬ Within (Inside map) (load4LE abi mem (map.addr + x)) := by
  rw [within_load4LE]
  intro all
  have := all 3 (by omega)
  rw [add_assoc,inside_iff mapped (by omega)] at this
  omega

theorem field2_iff (mapped : Mapped abi map) {x : Nat} (inside : x + 2 ≤ map.length) {k : Nat → Parser β} :
    Within (Inside map) (load2LE abi mem (map.addr + x) >>= k) ↔ Within (Inside map) (k (peek2 abi mem (map.addr + x))) := by
  rw [within_bind_ok (load2LE_result abi mem _),and_iff_right (load2LE_inside mapped inside)]
theorem field4_iff (mapped : Mapped abi map) {x : Nat} (inside : x + 4 ≤ map.length) {k : Nat → Parser β} :
    Within (Inside map) (load4LE abi mem (map.addr + x) >>= k) ↔ Within (Inside map) (k (peek4 abi mem (map.addr + x))) := by
  rw [within_bind_ok (load4LE_result abi mem _),and_iff_right (load4LE_inside mapped inside)]

/-! ## Names -/

private theorem strncmp_within {s1 s2 n : Nat} (first : ∀ i < n, I (abi.ptr (s1 + i)))
    (second : ∀ i < n, I (abi.ptr (s2 + i))) : Within I (strncmp abi mem s1 s2 n) := by
  induction n generalizing s1 s2 with
  | zero => simp [strncmp]
  | succ n ih =>
    rw [Nat.forall_lt_succ_left] at first second
    rw [strncmp,within_bind_ok (load_result abi mem s1),within_bind_ok (load_result abi mem s2),within_load,within_load]
    refine ⟨first.1,second.1,?_⟩
    split_ifs
    · exact within_pure _ _
    · exact within_pure _ _
    · refine ih ?_ ?_ <;> simpa only [add_assoc,add_comm 1] using And.right ‹_›

def Printable (abi : Abi) (mem : Mem) (a : Nat) : Prop := 32 ≤ abi.char (peek abi mem a) ∧ abi.char (peek abi mem a) < 127

private theorem validChars_within_iff {a n : Nat} :
    Within I (validChars abi mem a n) ↔ ∀ i < n, (∀ j < i, Printable abi mem (a + j)) → I (abi.ptr (a + i)) := by
  induction n generalizing a with
  | zero => simp [validChars]
  | succ n ih =>
    rw [validChars,within_bind_ok (load_result abi mem a),within_load,Nat.forall_lt_succ_left]
    simp only [Nat.forall_lt_succ_left]
    by_cases printable : Printable abi mem a
    · rw [if_neg (by unfold Printable at printable; omega),ih]
      simp [printable,add_assoc,add_comm 1]
    · rw [if_pos (by unfold Printable at printable; omega)]
      simp [printable]

def NameInside (map : MemMapping) (e : ZipEntry) : Prop :=
  map.addr ≤ e.fileName ∧ e.fileName + e.fileNameLen ≤ map.addr + map.length

theorem NameInside.byte (mapped : Mapped abi map) {e : ZipEntry} (inside : NameInside map e) {i : Nat} (less : i < e.fileNameLen) :
    Inside map (abi.ptr (e.fileName + i)) := by
  have limit := mapped.limit
  obtain ⟨low,high⟩ := inside
  rw [ptr_small (by omega)]
  exact ⟨by omega,by omega⟩

private theorem searchEntry_within (mapped : Mapped abi map) (named : ∀ e ∈ es, Named abi mem e ∧ NameInside map e)
    {fileName fileNameLen : Nat} (short : fileNameLen < PATH_MAX) (inside : ∀ i < fileNameLen, Inside map (abi.ptr (fileName + i)))
    {steps : Nat} {low high : Int} (start : 0 ≤ low) (stop : high < es.length) :
    Within (Inside map) (searchEntry abi mem es fileName fileNameLen steps low high) := by
  induction steps generalizing low high with
  | zero => simp [searchEntry]
  | succ steps ih =>
    unfold searchEntry
    split
    · have less : (low + (high - low) / 2).toNat < es.length := by omega
      have listed : es.getD (low + (high - low) / 2).toNat noEntry ∈ es := by
        rw [getD_eq_getElem _ _ less]
        exact getElem_mem less
      rw [within_bind_ok (compareNames_result abi mem (named _ listed).1 short)]
      constructor
      · unfold compareNames
        rw [within_bind]
        constructor
        · refine strncmp_within (fun i less => NameInside.byte mapped (named _ listed).2 ?_) fun i less => inside i ?_
          all_goals split at less <;> omega
        · intro diff _
          split <;> exact within_pure _ _
      · split
        · exact ih (by omega) stop
        · split
          · exact ih start (by omega)
          · exact within_pure _ _
    · exact within_pure _ _
private theorem targetFor_within (mapped : Mapped abi map) (named : ∀ e ∈ es, Named abi mem e ∧ NameInside map e)
    {fileName fileNameLen : Nat} (short : fileNameLen < PATH_MAX) (inside : ∀ i < fileNameLen, Inside map (abi.ptr (fileName + i))) :
    Within (Inside map) (targetFor abi mem es es.length fileName fileNameLen) := by
  unfold targetFor
  split
  · refine within_bind.mpr ⟨searchEntry_within mapped named short inside (by omega) (by omega),fun high _ => ?_⟩
    dsimp only
    split
    · exact within_pure _ _
    · exact within_stop _ _
  · exact within_pure _ _

/-! ## Records -/

/-- The header of the record at an offset ends past the end of memory, and is read: its
    signature is outside the map or is right. -/
def HeaderSlip (abi : Abi) (mem : Mem) (map : MemMapping) (o : Nat) : Prop :=
  2 ^ abi.bits ≤ map.addr + (o + CENHDR) ∧ (map.length < o + 4 ∨ peek4 abi mem (map.addr + o) = CENSIG)
/-- The name ends past the end of memory, and nothing in the map stops its check. -/
def NameSlip (abi : Abi) (mem : Mem) (map : MemMapping) (o : Nat) : Prop :=
  2 ^ abi.bits ≤ map.addr + (o + CENHDR + recordNameLen abi mem (map.addr + o)) ∧
    recordNameLen abi mem (map.addr + o) < PATH_MAX ∧
    ∀ i, o + CENHDR + i < map.length → Printable abi mem (map.addr + (o + CENHDR + i))
/-- The local header starts below the end of memory and ends past it, and is read. -/
def LocalSlip (abi : Abi) (mem : Mem) (map : MemMapping) (l : Nat) : Prop :=
  map.addr + l < 2 ^ abi.bits ∧ 2 ^ abi.bits ≤ map.addr + (l + LOCHDR) ∧
    (map.length < l + 4 ∨ peek4 abi mem (map.addr + l) = LOCSIG)

/-- The header of a record is all right, and its name is. -/
def HeaderInside (abi : Abi) (mem : Mem) (map : MemMapping) (o : Nat) : Prop :=
  o + CENHDR ≤ map.length ∧ peek4 abi mem (map.addr + o) = CENSIG
def NameValid (abi : Abi) (mem : Mem) (map : MemMapping) (o : Nat) : Prop :=
  o + CENHDR + recordNameLen abi mem (map.addr + o) ≤ map.length ∧
    Valid abi mem (abi.ptr (map.addr + o + CENHDR)) (recordNameLen abi mem (map.addr + o))

/-- A record whose check wraps around the end of memory. -/
def ReadSlip (abi : Abi) (mem : Mem) (map : MemMapping) (o : Nat) : Prop :=
  HeaderSlip abi mem map o ∨ (HeaderInside abi mem map o ∧ NameSlip abi mem map o) ∨
    (HeaderInside abi mem map o ∧ NameValid abi mem map o ∧ Compatible abi mem (map.addr + o) ∧
      LocalSlip abi mem map (peek4 abi mem (map.addr + o + CENOFF)))

theorem peek4_lt (abi : Abi) (mem : Mem) (a : Nat) : peek4 abi mem a < 2 ^ 32 := by
  have b0 : peek abi mem a < 256 := UInt8.toNat_lt _
  have b1 : peek abi mem (a + 1) < 256 := UInt8.toNat_lt _
  have b2 : peek abi mem (a + 2) < 256 := UInt8.toNat_lt _
  have b3 : peek abi mem (a + 3) < 256 := UInt8.toNat_lt _
  unfold peek4
  omega

variable {S : SafeIop abi}

theorem header_within_iff (mapped : Mapped abi map) {x h sig : Nat} (four : 4 ≤ h) (less : x + h < 2 ^ abi.bits)
    {rest : Parser β} (beyond : map.length < x + h → ¬ Within (Inside map) rest) :
    Within (Inside map) (if abi.ptr (map.addr + (x + h)) > map.limit abi then bail
      else do if (← load4LE abi mem (map.addr + x)) ≠ sig then bail else rest) ↔
      ¬ (2 ^ abi.bits ≤ map.addr + (x + h) ∧ (map.length < x + 4 ∨ peek4 abi mem (map.addr + x) = sig)) ∧
        (x + h ≤ map.length → peek4 abi mem (map.addr + x) = sig → Within (Inside map) rest) := by
  have limit := mapped.limit
  have past := not_past_iff mapped less
  by_cases checked : abi.ptr (map.addr + (x + h)) > map.limit abi
  · rw [if_pos checked]
    have neither := past.not.mp (not_not.mpr checked)
    exact iff_of_true (within_stop _ _) ⟨fun slip => neither (.inr slip.1),fun inside => absurd (.inl inside) neither⟩
  rw [if_neg checked]
  replace past := past.mp checked
  by_cases outside : map.length < x + 4
  · refine iff_of_false (fun within => ?_) fun both => both.1 ⟨by omega,.inl outside⟩
    exact load4LE_outside mapped (by omega) outside (within_bind.mp within).1
  rw [field4_iff mapped (by omega)]
  by_cases signature : peek4 abi mem (map.addr + x) = sig
  · rw [if_neg (not_not.mpr signature)]
    by_cases inside : x + h ≤ map.length
    · exact ⟨fun within => ⟨by omega,fun _ _ => within⟩,fun both => both.2 inside signature⟩
    · exact iff_of_false (beyond (by omega)) fun both => both.1 ⟨by omega,.inr signature⟩
  · rw [if_pos signature]
    exact iff_of_true (within_stop _ _) ⟨fun slip => slip.2.elim outside signature,fun _ same => absurd same signature⟩

private theorem localHeader_within_iff (mapped : Mapped abi map) {l : Nat} (pointer : map.addr + l < 2 ^ abi.bits)
    {k : Nat → Nat → Parser ZipEntry} (last : ∀ n e, Within (Inside map) (k n e)) :
    Within (Inside map) (if abi.ptr (map.addr + l + LOCHDR) > map.limit abi then bail
      else do
        if (← load4LE abi mem (map.addr + l)) ≠ LOCSIG then bail
        else do
          let nameLen ← load2LE abi mem (map.addr + l + LOCNAM)
          let extraLen ← load2LE abi mem (map.addr + l + LOCEXT)
          k nameLen extraLen) ↔ ¬ LocalSlip abi mem map l := by
  have start := mapped.start
  unfold LocalSlip LOCHDR LOCNAM LOCEXT
  rw [add_assoc map.addr l 30,add_assoc map.addr l 26,add_assoc map.addr l 28,and_iff_right pointer,
    header_within_iff mapped (by omega) (by omega),and_iff_left fun inside _ => ?_]
  · rw [field2_iff mapped (by omega),field2_iff mapped (by omega)]
    exact last _ _
  -- the last byte of the header is past the end of the map
  intro outside within
  rw [within_bind] at within
  have second := (within_bind.mp (within.2 _ (load2LE_result abi mem _))).1
  have := (within_load2LE.mp second) 1 (by omega)
  rw [add_assoc,inside_iff mapped (by omega)] at this
  omega

variable {o : Nat}

theorem readEntry_within_iff (mapped : Mapped abi map) (inside : o + CENHDR ≤ map.length) (fileName fileNameLen l : Nat) :
    Within (Inside map) (readEntry abi mem S map (map.addr + o) fileName fileNameLen l) ↔
      (Compatible abi mem (map.addr + o) → ¬ LocalSlip abi mem map l) := by
  unfold readEntry CENSIZ CENLEN CENHOW CENTIM CENCRC CENVEM CENATX
  unfold CENHDR at inside
  simp only [add_assoc map.addr o]
  rw [field4_iff mapped (by omega),field4_iff mapped (by omega),field2_iff mapped (by omega),field4_iff mapped (by omega),
    field4_iff mapped (by omega),field2_iff mapped (by omega)]
  by_cases compatible : Compatible abi mem (map.addr + o)
  · have compatible' : ¬ (peek2 abi mem (map.addr + (o + 4)) &&& 0xff00 ≠ 0 ∧
        peek2 abi mem (map.addr + (o + 4)) &&& 0xff00 ≠ CENVEM_UNIX) := compatible
    rw [if_neg compatible',field4_iff mapped (by omega),S.addPtr_eq,forall_prop_of_true compatible]
    by_cases pointer : map.addr + l < 2 ^ abi.bits
    · rw [if_pos pointer]
      refine localHeader_within_iff mapped pointer fun n e => ?_
      split
      · exact within_stop _ _
      · split
        · exact within_stop _ _
        · exact within_pure _ _
    · rw [if_neg pointer]
      exact iff_of_true (within_stop _ _) fun slip => pointer slip.1
  · have compatible' : peek2 abi mem (map.addr + (o + 4)) &&& 0xff00 ≠ 0 ∧
        peek2 abi mem (map.addr + (o + 4)) &&& 0xff00 ≠ CENVEM_UNIX := not_not.mp compatible
    rw [if_pos compatible']
    exact iff_of_true (within_stop _ _) fun holds => absurd holds compatible

theorem name_ptr (o i : Nat) : abi.ptr (abi.ptr (map.addr + o + CENHDR) + i) = abi.ptr (map.addr + (o + CENHDR + i)) := by
  rw [ptr_add,add_assoc,add_assoc,add_assoc]
theorem name_printable (o i : Nat) : Printable abi mem (abi.ptr (map.addr + o + CENHDR) + i) ↔
    Printable abi mem (map.addr + (o + CENHDR + i)) := by
  rw [Printable,Printable,peek,peek,name_ptr]
theorem name_inside (mapped : Mapped abi map) {n : Nat} (inside : o + CENHDR + n ≤ map.length) :
    ∀ i < n, Inside map (abi.ptr (abi.ptr (map.addr + o + CENHDR) + i)) := by
  intro i less
  have limit := mapped.limit
  rw [name_ptr,inside_iff mapped (by omega)]
  omega

theorem validFilename_within_iff (mapped : Mapped abi map) (inside : o + CENHDR ≤ map.length)
    (fits : ¬ abi.ptr (abi.ptr (map.addr + o + CENHDR) + recordNameLen abi mem (map.addr + o)) > map.limit abi) :
    Within (Inside map) (validFilename abi mem (abi.ptr (map.addr + o + CENHDR)) (recordNameLen abi mem (map.addr + o))) ↔
      ¬ NameSlip abi mem map o := by
  have limit := mapped.limit
  have room := mapped.room
  have few : recordNameLen abi mem (map.addr + o) < 2 ^ 16 := peek2_lt abi mem _
  unfold NameSlip
  set n := recordNameLen abi mem (map.addr + o)
  rw [name_ptr,not_past_iff mapped (by omega)] at fits
  unfold validFilename
  by_cases long : n ≥ PATH_MAX
  · rw [if_pos long]
    exact iff_of_true (within_pure _ _) fun slip => by omega
  rw [if_neg long,validChars_within_iff]
  simp only [name_printable,name_ptr]
  by_cases wraps : 2 ^ abi.bits ≤ map.addr + (o + CENHDR + n)
  · constructor
    · rintro all ⟨-,-,text⟩
      have := all (map.length - (o + CENHDR)) (by omega) fun j earlier => text j (by omega)
      rw [inside_iff mapped (by omega)] at this
      omega
    · intro none i less before
      rw [inside_iff mapped (by omega)]
      by_contra outside
      exact none ⟨wraps,by omega,fun j earlier => before j (by omega)⟩
  · refine iff_of_true (fun i less _ => ?_) fun slip => wraps slip.1
    rw [inside_iff mapped (by omega)]
    omega

theorem valid_printable {n : Nat} (valid : Valid abi mem (abi.ptr (map.addr + o + CENHDR)) n) {i : Nat} (less : i < n) :
    Printable abi mem (map.addr + (o + CENHDR + i)) := by
  rw [← name_printable]
  exact valid.2 _ (mem_map.mpr ⟨i,mem_range.mpr less,rfl⟩)

theorem recordRest_within_iff (mapped : Mapped abi map)
    (named : ∀ e ∈ es, Named abi mem e ∧ NameInside map e) (sorted : Sorted (nameRank abi mem) es) (few : es.length < 2 ^ 31)
    (inside : o + CENHDR ≤ map.length)
    {k : Nat → ZipEntry → Parser (Nat × List ZipEntry)} (last : ∀ target e, Within (Inside map) (k target e)) :
    Within (Inside map) (
      if abi.ptr (abi.ptr (map.addr + o + CENHDR) + recordNameLen abi mem (map.addr + o)) > map.limit abi then bail
      else do
        if ¬ (← validFilename abi mem (abi.ptr (map.addr + o + CENHDR)) (recordNameLen abi mem (map.addr + o))) then bail
        else do
          let target ← targetFor abi mem es es.length (abi.ptr (map.addr + o + CENHDR)) (recordNameLen abi mem (map.addr + o))
          let e ← readEntry abi mem S map (map.addr + o) (abi.ptr (map.addr + o + CENHDR))
            (recordNameLen abi mem (map.addr + o)) (peek4 abi mem (map.addr + o + CENOFF))
          k target e) ↔
      ¬ NameSlip abi mem map o ∧ ¬ (NameValid abi mem map o ∧ Compatible abi mem (map.addr + o) ∧
        LocalSlip abi mem map (peek4 abi mem (map.addr + o + CENOFF))) := by
  have limit := mapped.limit
  have room := mapped.room
  have few' : recordNameLen abi mem (map.addr + o) < 2 ^ 16 := peek2_lt abi mem _
  have ends := not_past_iff mapped (show o + CENHDR + recordNameLen abi mem (map.addr + o) < 2 ^ abi.bits by omega)
  rw [← name_ptr] at ends
  by_cases past : abi.ptr (abi.ptr (map.addr + o + CENHDR) + recordNameLen abi mem (map.addr + o)) > map.limit abi
  · rw [if_pos past]
    have neither := ends.not.mp (not_not.mpr past)
    exact iff_of_true (within_stop _ _) ⟨fun slip => neither (.inr slip.1),fun slip => neither (.inl slip.1.1)⟩
  obtain ⟨valid,checks,means⟩ := validFilename_result abi mem (abi.ptr (map.addr + o + CENHDR))
    (recordNameLen abi mem (map.addr + o))
  rw [if_neg past,within_bind_ok checks,validFilename_within_iff mapped inside past]
  refine and_congr_right fun noSlip => ?_
  cases valid with
  | false =>
    exact iff_of_true (within_stop _ _) fun slip => absurd (means.mpr slip.1.2) (by simp)
  | true =>
    have valid := means.mp rfl
    -- with a valid name the end of the name has not wrapped
    have nameInside : o + CENHDR + recordNameLen abi mem (map.addr + o) ≤ map.length :=
      (ends.mp past).resolve_right fun wraps => noSlip ⟨wraps,valid.1,fun i less => valid_printable valid (by omega)⟩
    rw [if_neg (by simp)]
    obtain ⟨target,found,-⟩ := targetFor_result abi mem (fun e member => (named e member).1) sorted
      (abi.ptr (map.addr + o + CENHDR)) valid.1 few
    rw [within_bind_ok found,and_iff_right (targetFor_within mapped named valid.1 (name_inside mapped nameInside)),
      within_bind,and_iff_left fun e _ => last target e,readEntry_within_iff mapped inside]
    exact ⟨fun none slip => none slip.2.1 slip.2.2,fun none compatible slip => none ⟨⟨nameInside,valid⟩,compatible,slip⟩⟩

theorem parseRecord_within_iff (mapped : Mapped abi map)
    (named : ∀ e ∈ es, Named abi mem e ∧ NameInside map e) (sorted : Sorted (nameRank abi mem) es) (few : es.length < 2 ^ 31)
    (near : o ≤ map.length + 2 ^ 18) :
    Within (Inside map) (parseRecord abi mem S map es.length (map.addr + o) es) ↔ ¬ ReadSlip abi mem map o := by
  have room := mapped.room
  have numbers : CENHDR = 46 ∧ CENOFF = 42 ∧ CENNAM = 28 ∧ CENEXT = 30 ∧ CENCOM = 32 := ⟨rfl,rfl,rfl,rfl,rfl⟩
  unfold parseRecord
  rw [add_assoc map.addr o CENHDR,header_within_iff mapped (by omega) (by omega) fun outside within => ?_]
  · refine Iff.trans (b := ¬ HeaderSlip abi mem map o ∧ (o + CENHDR ≤ map.length → peek4 abi mem (map.addr + o) = CENSIG →
      ¬ NameSlip abi mem map o ∧ ¬ (NameValid abi mem map o ∧ Compatible abi mem (map.addr + o) ∧
        LocalSlip abi mem map (peek4 abi mem (map.addr + o + CENOFF))))) (and_congr_right fun _ => forall₂_congr fun inside _ => ?_) ?_
    · rw [add_assoc map.addr o CENOFF,field4_iff mapped (by omega),add_assoc map.addr o CENNAM,
        field2_iff mapped (by omega),add_assoc map.addr o CENEXT,field2_iff mapped (by omega),
        add_assoc map.addr o CENCOM,field2_iff mapped (by omega),← add_assoc map.addr o CENOFF,
        ← add_assoc map.addr o CENNAM,← add_assoc map.addr o CENHDR]
      exact recordRest_within_iff mapped named sorted few inside fun target e => within_pure _ _
    · constructor
      · rintro ⟨noHeader,rest⟩ (slip | ⟨⟨inside,signature⟩,slip⟩ | ⟨⟨inside,signature⟩,slip⟩)
        · exact noHeader slip
        · exact (rest inside signature).1 slip
        · exact (rest inside signature).2 slip
      · exact fun none => ⟨fun slip => none (.inl slip),fun inside signature =>
          ⟨fun slip => none (.inr (.inl ⟨⟨inside,signature⟩,slip⟩)),fun slip => none (.inr (.inr ⟨⟨inside,signature⟩,slip⟩))⟩⟩
  · rw [add_assoc map.addr o CENOFF] at within
    exact load4LE_outside mapped (by omega) (by omega) (within_bind.mp within).1

/-! ## Entries -/

structure RecordInside (abi : Abi) (mem : Mem) (map : MemMapping) (o : Nat) : Prop where
  header : HeaderInside abi mem map o
  name : NameValid abi mem map o
  localHdr : peek4 abi mem (map.addr + o + CENOFF) + LOCHDR ≤ map.length

theorem checked_inside (mapped : Mapped abi map) (near : o ≤ map.length + 2 ^ 18)
    (checked : Checked abi mem S map (map.addr + o)) (noSlip : ¬ ReadSlip abi mem map o) : RecordInside abi mem map o := by
  have limit := mapped.limit
  have room := mapped.room
  have start := mapped.start
  have few : recordNameLen abi mem (map.addr + o) < 2 ^ 16 := peek2_lt abi mem _
  have numbers : CENHDR = 46 ∧ LOCHDR = 30 := ⟨rfl,rfl⟩
  have header : HeaderInside abi mem map o := by
    have past := checked.header
    rw [add_assoc,not_past_iff mapped (by omega)] at past
    exact ⟨past.resolve_right fun wraps => noSlip (.inl ⟨wraps,.inr checked.signature⟩),checked.signature⟩
  have name : NameValid abi mem map o := by
    have past := checked.name
    rw [name_ptr,not_past_iff mapped (by omega)] at past
    refine ⟨past.resolve_right fun wraps => noSlip (.inr (.inl ⟨header,wraps,checked.valid.1,fun i less => ?_⟩)),checked.valid⟩
    exact valid_printable checked.valid (by omega)
  refine ⟨header,name,?_⟩
  have rest := checked.rest
  have pointer : map.addr + peek4 abi mem (map.addr + o + CENOFF) < 2 ^ abi.bits := rest.pointer
  have past : ¬ abi.ptr (map.addr + peek4 abi mem (map.addr + o + CENOFF) + LOCHDR) > map.limit abi := rest.header
  rw [add_assoc,not_past_iff mapped (by omega)] at past
  exact past.resolve_right fun wraps => noSlip (.inr (.inr ⟨header,name,rest.compatible,pointer,wraps,.inr rest.signature⟩))

structure EntryInside (map : MemMapping) (e : ZipEntry) : Prop where
  name : NameInside map e
  offset : 0 ≤ e.offset
  compLen : 0 ≤ e.compLen
  data : e.offset + e.compLen ≤ map.length

/-- With 32 bits the length of the data, or where it starts, is no `long`. -/
def SignSlip (abi : Abi) (mem : Mem) (map : MemMapping) (o : Nat) : Prop :=
  abi.bits = 32 ∧ (2 ^ 31 ≤ peek4 abi mem (map.addr + o + CENSIZ) ∨ 2 ^ 31 ≤ dataOffset abi mem map (map.addr + o))

theorem long_small {n : Nat} (small : n < 2 ^ (abi.bits - 1)) : abi.long n = n := by
  unfold Abi.long
  rcases abi.known with known | known <;> rw [known] at small ⊢ <;> exact wrap_small (by omega) (by omega)
theorem long_negative {n : Nat} (bits : abi.bits = 32) (big : 2 ^ 31 ≤ n) (small : n < 2 ^ 32) : abi.long n < 0 := by
  unfold Abi.long wrap
  rw [bits,Int.bmod_neg _ _ (by omega)]
  omega

theorem name_of_inside (mapped : Mapped abi map) (inside : RecordInside abi mem map o) :
    NameInside map (entryOf abi mem map (map.addr + o)) := by
  have limit := mapped.limit
  have name := inside.name.1
  have place : (entryOf abi mem map (map.addr + o)).fileName = map.addr + o + CENHDR := ptr_small (by omega)
  have length : (entryOf abi mem map (map.addr + o)).fileNameLen = recordNameLen abi mem (map.addr + o) := rfl
  refine ⟨?_,?_⟩ <;> omega

theorem entryInside_iff (mapped : Mapped abi map) (checked : Checked abi mem S map (map.addr + o))
    (inside : RecordInside abi mem map o) :
    EntryInside map (entryOf abi mem map (map.addr + o)) ↔ ¬ SignSlip abi mem map o := by
  have length : peek4 abi mem (map.addr + o + CENSIZ) < 2 ^ 32 := peek4_lt abi mem _
  have start : dataOffset abi mem map (map.addr + o) < 2 ^ 32 := unsigned_lt _ _
  constructor
  · rintro good ⟨bits,big | big⟩
    · exact absurd good.compLen (not_le.mpr (long_negative bits big length))
    · exact absurd good.offset (not_le.mpr (long_negative bits big start))
  intro noSlip
  have small : peek4 abi mem (map.addr + o + CENSIZ) < 2 ^ (abi.bits - 1) ∧
      dataOffset abi mem map (map.addr + o) < 2 ^ (abi.bits - 1) := by
    rcases abi.known with known | known
    · rw [known]
      have : ¬ (2 ^ 31 ≤ peek4 abi mem (map.addr + o + CENSIZ) ∨ 2 ^ 31 ≤ dataOffset abi mem map (map.addr + o)) :=
        fun big => noSlip ⟨known,big⟩
      omega
    · rw [known]
      omega
  have compLen : (entryOf abi mem map (map.addr + o)).compLen = (peek4 abi mem (map.addr + o + CENSIZ) : Nat) :=
    long_small small.1
  have offset : (entryOf abi mem map (map.addr + o)).offset = (dataOffset abi mem map (map.addr + o) : Nat) :=
    long_small small.2
  have fits := checked.rest.data.2
  have half : 2 ^ abi.bits = 2 * 2 ^ (abi.bits - 1) := by
    rcases abi.known with known | known <;> rw [known] <;> decide
  rw [compLen,offset,unsigned_small (by omega),unsigned_small (by omega),ptr_small (by omega)] at fits
  refine ⟨name_of_inside mapped inside,?_,?_,?_⟩
  · omega
  · omega
  · omega

/-! ## The central directory -/

/-- The offsets of the records that may be looked at. -/
def offsets (abi : Abi) (mem : Mem) (map : MemMapping) : Nat → Nat → List Nat
  | 0, _ => []
  | left + 1, o => o :: offsets abi mem map left (o + (CENHDR + recordNameLen abi mem (map.addr + o) +
      peek2 abi mem (map.addr + o + CENEXT) + peek2 abi mem (map.addr + o + CENCOM)))

theorem load4LE_ptr (a c : Nat) : load4LE abi mem (abi.ptr a + c) = load4LE abi mem (a + c) := by
  unfold load4LE
  simp only [add_assoc,load_ptr]
theorem load2LE_ptr (a c : Nat) : load2LE abi mem (abi.ptr a + c) = load2LE abi mem (a + c) := by
  unfold load2LE
  simp only [add_assoc,load_ptr]
theorem parseRecord_ptr (i a : Nat) (es : List ZipEntry) :
    parseRecord abi mem S map i (abi.ptr a) es = parseRecord abi mem S map i a es := by
  have whole : load4LE abi mem (abi.ptr a) = load4LE abi mem a := load4LE_ptr a 0
  unfold parseRecord readEntry
  simp only [ptr_add,load4LE_ptr,load2LE_ptr,whole]
theorem parseRecords_ptr (left i a : Nat) (es : List ZipEntry) :
    parseRecords abi mem S map left i (abi.ptr a) es = parseRecords abi mem S map left i a es := by
  cases left with
  | zero => rfl
  | succ left => rw [parseRecords,parseRecord_ptr,parseRecords]

/-- What is kept of the entries: their names are inside, and they are sorted. -/
structure Held (abi : Abi) (mem : Mem) (map : MemMapping) (es : List ZipEntry) : Prop where
  named : ∀ e ∈ es, Named abi mem e ∧ NameInside map e
  sorted : Sorted (nameRank abi mem) es

theorem Held.add (mapped : Mapped abi map) (held : Held abi mem map es) (few : es.length < 2 ^ 31)
    (near : o ≤ map.length + 2 ^ 18) (noSlip : ¬ ReadSlip abi mem map o) (checked : Checked abi mem S map (map.addr + o)) :
    ∃ target ≤ es.length, (parseRecord abi mem S map es.length (map.addr + o) es).result =
        .ok (nextRecord abi mem (map.addr + o), es.insertIdx target (entryOf abi mem map (map.addr + o))) ∧
      Held abi mem map (es.insertIdx target (entryOf abi mem map (map.addr + o))) := by
  have inside := checked_inside mapped near checked noSlip
  obtain ⟨target,found,placed⟩ := targetFor_result abi mem (fun e member => (held.named e member).1) held.sorted
    (abi.ptr (map.addr + o + CENHDR)) checked.valid.1 few
  refine ⟨target,placed.inside,(parseRecord_returns abi mem S map).mpr ⟨checked,target,found,rfl⟩,fun e member => ?_,?_⟩
  · rcases eq_or_mem_of_mem_insertIdx member with rfl | known
    · exact ⟨checked.valid,name_of_inside mapped inside⟩
    · exact held.named e known
  · have place : Placed (nameRank abi mem) es (nameRank abi mem (entryOf abi mem map (map.addr + o))) target := placed
    exact held.sorted.insert place

/-- No record that is reached slips. -/
def NoReadSlip (abi : Abi) (mem : Mem) (S : SafeIop abi) (map : MemMapping) (os : List Nat) : Prop :=
  ∀ before o after, os = before ++ o :: after → (∀ p ∈ before, Checked abi mem S map (map.addr + p)) → ¬ ReadSlip abi mem map o

theorem noReadSlip_cons {os : List Nat} : NoReadSlip abi mem S map (o :: os) ↔
    ¬ ReadSlip abi mem map o ∧ (Checked abi mem S map (map.addr + o) → NoReadSlip abi mem S map os) := by
  constructor
  · exact fun none => ⟨none [] o os rfl (by simp),fun checked before p after split reached =>
      none (o :: before) p after (by rw [split]; rfl) (by simpa [checked] using reached)⟩
  · rintro ⟨first,rest⟩ (_ | ⟨q,before⟩) p after split reached <;> obtain ⟨rfl,later⟩ := cons.inj split
    · exact first
    · rw [forall_mem_cons] at reached
      exact rest reached.1 before p after later reached.2

theorem next_near (inside : RecordInside abi mem map o) :
    o + (CENHDR + recordNameLen abi mem (map.addr + o) + peek2 abi mem (map.addr + o + CENEXT) +
      peek2 abi mem (map.addr + o + CENCOM)) ≤ map.length + 2 ^ 18 := by
  have name := inside.name.1
  have extra := peek2_lt abi mem (map.addr + o + CENEXT)
  have comment := peek2_lt abi mem (map.addr + o + CENCOM)
  omega

theorem parseRecords_within_iff (mapped : Mapped abi map) {left : Nat} (held : Held abi mem map es)
    (few : es.length + left < 2 ^ 31) (near : o ≤ map.length + 2 ^ 18) :
    Within (Inside map) (parseRecords abi mem S map left es.length (map.addr + o) es) ↔
      NoReadSlip abi mem S map (offsets abi mem map left o) := by
  induction left generalizing o es with
  | zero =>
    refine iff_of_true (within_pure _ _) fun before p after split => ?_
    simp [offsets] at split
  | succ left ih =>
    rw [offsets,noReadSlip_cons,parseRecords,within_bind,
      parseRecord_within_iff mapped held.named held.sorted (by omega) near]
    refine and_congr_right fun noSlip => ?_
    by_cases checked : Checked abi mem S map (map.addr + o)
    · obtain ⟨target,inside,done,held'⟩ := held.add mapped (by omega) near noSlip checked
      have count := length_insertIdx_of_le_length inside (entryOf abi mem map (map.addr + o))
      have near' := next_near (checked_inside mapped near checked noSlip)
      rw [forall_prop_of_true checked,← ih held' (by omega) near',count,← add_assoc map.addr,← parseRecords_ptr]
      simp only [done,Except.ok.injEq,forall_eq']
      rfl
    · exact iff_of_true (fun r done => absurd ((parseRecord_returns abi mem S map).mp done).1 checked) fun all => absurd all checked

/-- Without slips the directory is read when all of its records are checked, and the entries
    are those of the records. -/
theorem parseRecords_ok_iff (mapped : Mapped abi map) {left : Nat} (held : Held abi mem map es)
    (few : es.length + left < 2 ^ 31) (near : o ≤ map.length + 2 ^ 18)
    (noSlip : NoReadSlip abi mem S map (offsets abi mem map left o)) :
    ((∃ fs, (parseRecords abi mem S map left es.length (map.addr + o) es).result = .ok fs) ↔
      ∀ p ∈ offsets abi mem map left o, Checked abi mem S map (map.addr + p)) ∧
    ∀ fs, (parseRecords abi mem S map left es.length (map.addr + o) es).result = .ok fs →
      Held abi mem map fs ∧ fs.length = es.length + left ∧
      ∀ e, e ∈ fs ↔ e ∈ es ∨ ∃ p ∈ offsets abi mem map left o, e = entryOf abi mem map (map.addr + p) := by
  induction left generalizing o es with
  | zero =>
    refine ⟨iff_of_true ⟨es,rfl⟩ (by simp [offsets]),fun fs done => ?_⟩
    cases done
    exact ⟨held,by simp,by simp [offsets]⟩
  | succ left ih =>
    rw [offsets,noReadSlip_cons] at noSlip
    obtain ⟨first,rest⟩ := noSlip
    by_cases checked : Checked abi mem S map (map.addr + o)
    · obtain ⟨target,inside,done,held'⟩ := held.add mapped (by omega) near first checked
      have count := length_insertIdx_of_le_length inside (entryOf abi mem map (map.addr + o))
      have steps : (parseRecords abi mem S map (left + 1) es.length (map.addr + o) es).result =
          (parseRecords abi mem S map left (es.insertIdx target (entryOf abi mem map (map.addr + o))).length
            (map.addr + (o + (CENHDR + recordNameLen abi mem (map.addr + o) + peek2 abi mem (map.addr + o + CENEXT) +
              peek2 abi mem (map.addr + o + CENCOM)))) (es.insertIdx target (entryOf abi mem map (map.addr + o)))).result := by
        rw [parseRecords,bind_result done,count]
        dsimp only
        rw [nextRecord,parseRecords_ptr,add_assoc map.addr]
      obtain ⟨returns,entries⟩ := ih held' (by omega) (next_near (checked_inside mapped near checked first)) (rest checked)
      rw [steps,offsets,forall_mem_cons,returns]
      refine ⟨⟨fun all => ⟨checked,all⟩,And.right⟩,fun fs found => ?_⟩
      obtain ⟨held'',total,members⟩ := entries fs found
      refine ⟨held'',by omega,fun e => ?_⟩
      rw [members,mem_insertIdx inside]
      simp only [mem_cons,exists_eq_or_imp]
      tauto
    · have stops fs : (parseRecords abi mem S map (left + 1) es.length (map.addr + o) es).result ≠ .ok fs := by
        intro done
        obtain ⟨r,one,-⟩ := bind_returns.mp done
        exact checked ((parseRecord_returns abi mem S map).mp one).1
      refine ⟨iff_of_false (fun ⟨fs,done⟩ => stops fs done) fun all => ?_,fun fs done => absurd done (stops fs)⟩
      exact checked (all o mem_cons_self)

/-! ## The whole archive -/

theorem loadName_within {a n : Nat} (inside : ∀ i < n, I (abi.ptr (a + i))) : Within I (loadName abi mem a n) := by
  induction n generalizing a with
  | zero => simp [loadName]
  | succ n ih =>
    rw [Nat.forall_lt_succ_left] at inside
    rw [loadName,within_bind_ok (load_result abi mem a),within_load,within_bind]
    exact ⟨inside.1,ih (by simpa only [add_assoc,add_comm 1] using inside.2),fun _ _ => within_pure _ _⟩
theorem addEntries_within (mapped : Mapped abi map) {calloc : Nat → Bool} (held : Held abi mem map es)
    {is : List Nat} (less : ∀ i ∈ is, i < es.length) {t : HashTable Nat} :
    Within (Inside map) (addEntries abi mem calloc es is t) := by
  induction is generalizing t with
  | nil => exact within_pure _ _
  | cons i rest ih =>
    rw [addEntries,within_bind]
    refine ⟨?_,fun u _ => ih fun j member => less j (mem_cons_of_mem _ member)⟩
    have inside := less i mem_cons_self
    have named : NameInside map (es.getD i noEntry) := by
      rw [getD_eq_getElem _ _ inside]
      exact (held.named _ (getElem_mem inside)).2
    refine within_bind.mpr ⟨loadName_within fun j short => named.byte mapped short,fun name _ => within_bind.mpr ⟨?_,?_⟩⟩
    · cases mzHashTableLookup calloc t (computeHash abi name) i
        (fun j k => hashcmpZipEntry abi mem (es.getD j noEntry) (es.getD k noEntry)) (some i) with
      | ok found => exact within_pure _ _
      | err code => exact within_stop _ _
      | stuck => exact within_stop _ _
    · exact fun _ _ => within_pure _ _

def mappedBytes (abi : Abi) (mem : Mem) (map : MemMapping) : Bytes := bytesAt abi mem map.addr map.length

theorem byteAt_mapped {x : Nat} (inside : x < map.length) :
    byteAt (mappedBytes abi mem map) x = peek abi mem (map.addr + x) := by
  simp [byteAt,mappedBytes,bytesAt,peek,inside]
theorem get4LE_mapped {x : Nat} (inside : x + 4 ≤ map.length) :
    get4LE (mappedBytes abi mem map) x = peek4 abi mem (map.addr + x) := by
  have byte i (less : i < 4) : byteAt (mappedBytes abi mem map) (x + i) = peek abi mem (map.addr + x + i) := by
    rw [byteAt_mapped (by omega),add_assoc]
  have first : byteAt (mappedBytes abi mem map) x = peek abi mem (map.addr + x) := byteAt_mapped (by omega)
  unfold get4LE peek4
  rw [first,byte 1 (by omega),byte 2 (by omega),byte 3 (by omega)]
theorem get2LE_mapped {x : Nat} (inside : x + 2 ≤ map.length) :
    get2LE (mappedBytes abi mem map) x = peek2 abi mem (map.addr + x) := by
  simp only [get2LE,peek2,add_assoc map.addr]
  rw [byteAt_mapped (by omega),byteAt_mapped (by omega)]

theorem scanBack_lt {file : Bytes} {k p : Nat} (found : Minzip.scanBack file k = some p) : p < k := by
  induction k with
  | zero => cases found
  | succ k ih =>
    unfold Minzip.scanBack at found
    split at found
    · cases found
      omega
    · have := ih found
      omega
theorem scanBack_mapped (mem : Mem) (mapped : Mapped abi map) {k : Nat} (below : k + 21 ≤ map.length) :
    Within (Inside map) (ZipArchive.scanBack abi mem map.addr k) ∧ (ZipArchive.scanBack abi mem map.addr k).result =
      (Minzip.scanBack (mappedBytes abi mem map) k).elim (.error .bail) fun p => .ok (map.addr + p) := by
  have limit := mapped.limit
  induction k with
  | zero => exact ⟨within_stop _ _,rfl⟩
  | succ k ih =>
    obtain ⟨within,result⟩ := ih (by omega)
    unfold ZipArchive.scanBack Minzip.scanBack
    rw [within_bind_ok (load_result abi mem _),within_load,inside_iff mapped (by omega),bind_result (load_result abi mem _),
      byteAt_mapped (by omega),get4LE_mapped (by omega)]
    by_cases first : peek abi mem (map.addr + k) = ENDSIG &&& 0xff
    · rw [if_pos first,field4_iff mapped (by omega),bind_result (load4LE_result abi mem _)]
      by_cases whole : peek4 abi mem (map.addr + k) = ENDSIG
      · rw [if_pos whole,if_pos ⟨first,whole⟩]
        exact ⟨⟨by omega,within_pure _ _⟩,rfl⟩
      · rw [if_neg whole,if_neg fun both => whole both.2]
        exact ⟨⟨by omega,within⟩,result⟩
    · rw [if_neg first,if_neg fun both => first both.1]
      exact ⟨⟨by omega,within⟩,result⟩

theorem findDirectory_mapped (mapped : Mapped abi map) : Within (Inside map) (findDirectory abi mem map) ∧
    (findDirectory abi mem map).result = (locateDirectory (mappedBytes abi mem map)).elim (.error .bail) .ok := by
  have size : 22 ≤ map.length := mapped.size
  have numbers : ENDHDR = 22 ∧ ENDSUB = 8 ∧ ENDOFF = 16 := ⟨rfl,rfl,rfl⟩
  obtain ⟨inside,scanned⟩ := scanBack_mapped mem mapped (show map.length + 1 - ENDHDR + 21 ≤ map.length by omega)
  have first : load4LE abi mem map.addr = load4LE abi mem (map.addr + 0) := rfl
  unfold findDirectory locateDirectory findEocd
  rw [first,field4_iff mapped (by omega),bind_result (load4LE_result abi mem _),get4LE_mapped (by omega),mappedBytes,
    length_bytesAt,← mappedBytes]
  dsimp only
  by_cases empty : peek4 abi mem (map.addr + 0) = ENDSIG
  · rw [if_pos empty,if_pos empty]
    exact ⟨within_stop _ _,rfl⟩
  rw [if_neg empty,if_neg empty]
  by_cases zip : peek4 abi mem (map.addr + 0) = LOCSIG
  swap
  · rw [if_pos zip,if_pos zip]
    exact ⟨within_stop _ _,rfl⟩
  rw [if_neg (not_not.mpr zip),if_neg (not_not.mpr zip)]
  cases located : Minzip.scanBack (mappedBytes abi mem map) (map.length + 1 - ENDHDR) with
  | none =>
    rw [located] at scanned
    rw [bind_eq_error scanned]
    exact ⟨inside,rfl⟩
  | some p =>
    have low := scanBack_lt located
    rw [located] at scanned
    rw [within_bind_ok scanned,bind_result scanned,and_iff_right inside,add_assoc,add_assoc,
      field2_iff mapped (by omega),field4_iff mapped (by omega),bind_result (load2LE_result abi mem _),
      bind_result (load4LE_result abi mem _),← get2LE_mapped (by omega),← get4LE_mapped (by omega)]
    dsimp only
    split_ifs
    · exact ⟨within_stop _ _,rfl⟩
    · exact ⟨within_pure _ _,rfl⟩

theorem locateDirectory_below {n cdOffset : Nat} {file : Bytes} (located : locateDirectory file = some (n, cdOffset)) :
    cdOffset < file.length := by
  unfold locateDirectory at located
  dsimp only at located
  split_ifs at located
  cases found : findEocd file with
  | none => simp [found] at located
  | some p =>
    simp only [found] at located
    split_ifs at located with wrong
    cases located
    omega

theorem offsets_inside (mapped : Mapped abi map) {left : Nat} (near : o ≤ map.length + 2 ^ 18)
    (noSlip : NoReadSlip abi mem S map (offsets abi mem map left o))
    (checked : ∀ p ∈ offsets abi mem map left o, Checked abi mem S map (map.addr + p)) :
    ∀ p ∈ offsets abi mem map left o, RecordInside abi mem map p := by
  induction left generalizing o with
  | zero => simp [offsets]
  | succ left ih =>
    rw [offsets,noReadSlip_cons] at noSlip
    rw [offsets,forall_mem_cons] at checked
    have inside := checked_inside mapped near checked.1 noSlip.1
    rw [offsets,forall_mem_cons]
    exact ⟨inside,ih (next_near inside) (noSlip.2 checked.1) checked.2⟩

theorem readEntries_iff (mapped : Mapped abi map) {calloc : Nat → Bool} {n cdOffset : Nat} (few : n < 2 ^ 16)
    (below : cdOffset < map.length) {t : HashTable Nat} (created : mzHashTableCreate calloc (mzHashSize n) false = some t) :
    (Within (Inside map) (readEntries abi mem S map true calloc n cdOffset) ∧
      ∀ archive, (readEntries abi mem S map true calloc n cdOffset).result = .ok archive →
        ∀ e ∈ archive.pEntries, EntryInside map e) ↔
    NoReadSlip abi mem S map (offsets abi mem map n cdOffset) ∧
      ((∀ o ∈ offsets abi mem map n cdOffset, Checked abi mem S map (map.addr + o)) →
        ∀ o ∈ offsets abi mem map n cdOffset, ¬ SignSlip abi mem map o) := by
  have nothing : Held abi mem map [] := ⟨by simp,List.Pairwise.nil⟩
  have count : ([] : List ZipEntry).length = 0 := rfl
  have total : ([] : List ZipEntry).length + n < 2 ^ 31 := by omega
  have near : cdOffset ≤ map.length + 2 ^ 18 := by omega
  have within := parseRecords_within_iff (S := S) mapped nothing total near
  have parsed := parseRecords_ok_iff (S := S) mapped nothing total near
  unfold readEntries
  rw [created]
  generalize parseRecords abi mem S map n 0 (map.addr + cdOffset) [] = records at within parsed
  rw [within_bind,within,and_assoc]
  refine and_congr_right fun noSlip => ?_
  obtain ⟨returns,entries⟩ := parsed noSlip
  constructor
  · rintro ⟨-,good⟩ checked o member
    obtain ⟨fs,done⟩ := returns.mpr checked
    obtain ⟨held,total,members⟩ := entries fs done
    obtain rfl : fs.length = n := by omega
    obtain ⟨u,added,-⟩ := addEntries_returns (fun e known => (held.named e known).1) few created
    have accepted := good ⟨fs.length,fs,u⟩ (bind_returns.mpr ⟨fs,done,bind_returns.mpr ⟨u,added,rfl⟩⟩)
    exact (entryInside_iff mapped (checked o member) (offsets_inside mapped near noSlip checked o member)).mp
      (accepted _ ((members _).mpr (.inr ⟨o,member,rfl⟩)))
  · intro good
    refine ⟨fun fs done => ?_,fun archive done e member => ?_⟩
    · obtain ⟨held,total,-⟩ := entries fs done
      refine within_bind.mpr ⟨addEntries_within mapped held fun i less => ?_,fun _ _ => within_pure _ _⟩
      have := mem_range.mp less
      omega
    · obtain ⟨fs,read,rest⟩ := bind_returns.mp done
      obtain ⟨u,-,last⟩ := bind_returns.mp rest
      cases last
      have checked := returns.mp ⟨fs,read⟩
      rcases ((entries fs read).2.2 e).mp member with known | ⟨o,place,rfl⟩
      · cases known
      · have inside := offsets_inside mapped near noSlip checked o place
        exact (entryInside_iff mapped (checked o place) inside).mpr (good checked o place)

/-- `parseZipArchive` reads inside the map and accepts only entries inside it exactly when
    no record that it reaches wraps around the end of memory, and, if all records are
    accepted, none has a number that is no `long`. -/
theorem archive_stays_inside_iff (abi : Abi) (mem : Mem) (S : SafeIop abi) (map : MemMapping) (mapped : Mapped abi map)
    (room : Bool) (calloc : Nat → Bool) :
    (Within (Inside map) (parseZipArchive abi mem S map room calloc) ∧
      ∀ archive, (parseZipArchive abi mem S map room calloc).result = .ok archive →
        ∀ e ∈ archive.pEntries, EntryInside map e) ↔
    ∀ n cdOffset, locateDirectory (mappedBytes abi mem map) = some (n, cdOffset) → room = true →
      (mzHashTableCreate calloc (mzHashSize n) false : Option (HashTable Nat)).isSome →
      NoReadSlip abi mem S map (offsets abi mem map n cdOffset) ∧
        ((∀ o ∈ offsets abi mem map n cdOffset, Checked abi mem S map (map.addr + o)) →
          ∀ o ∈ offsets abi mem map n cdOffset, ¬ SignSlip abi mem map o) := by
  obtain ⟨inside, result⟩ : Within (Inside map) (findDirectory abi mem map) ∧ _ := findDirectory_mapped mapped
  have located r : (findDirectory abi mem map).result = .ok r ↔ locateDirectory (mappedBytes abi mem map) = some r := by
    rw [result]
    cases locateDirectory (mappedBytes abi mem map) <;> simp
  have few n cdOffset : (findDirectory abi mem map).result = .ok (n, cdOffset) → n < 2 ^ 16 :=
    fun done => (findDirectory_few done).2
  have below n cdOffset (found : locateDirectory (mappedBytes abi mem map) = some (n, cdOffset)) : cdOffset < map.length := by
    have := locateDirectory_below found
    rwa [mappedBytes, length_bytesAt] at this
  unfold parseZipArchive
  generalize findDirectory abi mem map = search at inside located few
  rw [within_bind, and_iff_right inside]
  simp only [bind_returns]
  constructor
  · rintro ⟨reads, good⟩ n cdOffset found rfl created
    obtain ⟨t, created⟩ := Option.isSome_iff_exists.mp created
    have done := (located (n, cdOffset)).mpr found
    exact (readEntries_iff mapped (few n cdOffset done) (below n cdOffset found) created).mp
      ⟨reads (n, cdOffset) done, fun archive last => good archive ⟨(n, cdOffset), done, last⟩⟩
  · intro holds
    have each n cdOffset (done : search.result = .ok (n, cdOffset)) :
        Within (Inside map) (readEntries abi mem S map room calloc n cdOffset) ∧
          ∀ archive, (readEntries abi mem S map room calloc n cdOffset).result = .ok archive →
            ∀ e ∈ archive.pEntries, EntryInside map e := by
      have found := (located (n, cdOffset)).mp done
      cases room with
      | false => exact ⟨within_stop _ _, nofun⟩
      | true =>
        cases created : (mzHashTableCreate calloc (mzHashSize n) false : Option (HashTable Nat)) with
        | none =>
          unfold readEntries
          rw [created]
          exact ⟨within_stop _ _, nofun⟩
        | some t =>
          exact (readEntries_iff mapped (few n cdOffset done) (below n cdOffset found) created).mpr
            (holds n cdOffset found rfl (Option.isSome_iff_exists.mpr ⟨t, created⟩))
    exact ⟨fun r done => (each r.1 r.2 done).1, fun archive ⟨r, done, last⟩ => (each r.1 r.2 done).2 archive last⟩

theorem noReadSlip_of_far (mapped : Mapped abi map) (far : map.addr + map.length + 2 ^ 33 ≤ 2 ^ abi.bits) {left : Nat}
    (near : o ≤ map.length + 2 ^ 18) : NoReadSlip abi mem S map (offsets abi mem map left o) := by
  induction left generalizing o with
  | zero =>
    intro before p after split
    simp [offsets] at split
  | succ left ih =>
    have few : recordNameLen abi mem (map.addr + o) < 2 ^ 16 := peek2_lt abi mem _
    have offset := peek4_lt abi mem (map.addr + o + CENOFF)
    have numbers : CENHDR = 46 ∧ LOCHDR = 30 := ⟨rfl,rfl⟩
    have noSlip : ¬ ReadSlip abi mem map o := by
      rintro (⟨wraps,-⟩ | ⟨-,wraps,-⟩ | ⟨-,-,-,-,wraps,-⟩) <;> omega
    rw [offsets,noReadSlip_cons]
    exact ⟨noSlip,fun checked => ih (next_near (checked_inside mapped near checked noSlip))⟩

end

/-- A 32-bit map of an archive whose only file says that its data is 2^32 - 10 bytes. -/
def hugeMem : Mem := memoryAt 4096 (localHeader ++ centralHeader (2 ^ 32 - 10) 0 ++ endHeader 1 31)
def hugeMap : MemMapping := ⟨4096, 100⟩

theorem archive_stays_inside_for_twins : Within (Inside twinsMap)
    (parseZipArchive lp64 twinsMem (safeIop lp64) twinsMap true fun n => n * 32 < 2 ^ 64) ∧
    ∀ archive, twinsParsed = .ok archive → ∀ e ∈ archive.pEntries, EntryInside twinsMap e := by
  have mapped : Mapped lp64 twinsMap := by constructor <;> decide
  refine (archive_stays_inside_iff lp64 twinsMem (safeIop lp64) twinsMap mapped true _).mpr ?_
  intro n cdOffset located _ _
  have below := locateDirectory_below located
  rw [mappedBytes, length_bytesAt] at below
  exact ⟨noReadSlip_of_far mapped (by decide) (by omega), fun _ _ _ slip => absurd slip.1 (by decide)⟩

/-- The huge length becomes -10 and passes the checks. -/
theorem negative_length_accepted : Mapped ilp32 hugeMap ∧ ∃ archive,
    (parseZipArchive ilp32 hugeMem (safeIop ilp32) hugeMap true fun n => n * 20 < 2 ^ 32).result = .ok archive ∧
    ∃ e ∈ archive.pEntries, e.compLen = -10 ∧ ¬ EntryInside hugeMap e := by
  refine ⟨by constructor <;> decide, ?_⟩
  have accepted : ((parseZipArchive ilp32 hugeMem (safeIop ilp32) hugeMap true fun n => n * 20 < 2 ^ 32).result.map
      fun archive => archive.pEntries.map ZipEntry.compLen) = .ok [-10] := by decide +kernel
  generalize (parseZipArchive ilp32 hugeMem (safeIop ilp32) hugeMap true fun n => n * 20 < 2 ^ 32).result = parsed at accepted ⊢
  cases parsed with
  | error stop => cases accepted
  | ok archive =>
    have lengths : archive.pEntries.map ZipEntry.compLen = [-10] := Except.ok.inj accepted
    obtain ⟨e, member, length⟩ := mem_map.mp (lengths ▸ mem_singleton_self (-10 : Int))
    exact ⟨archive, rfl, e, member, length, fun inside => absurd inside.compLen (by rw [length]; decide)⟩

end Recovery.ZipBounds
