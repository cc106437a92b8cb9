import Recovery.KeyFormat

/-!
Files of public keys: what `load_keys` makes of any text. A file in the documented format is a list
of keys with commas between them.
-/
namespace Recovery.KeyFiles
open Memory Scanf LoadKeys KeyFormat List

/-- Keys with commas between them and nothing at the end. -/
inductive File (key : Bytes → PublicKey → Bytes → Prop) : Bytes → List PublicKey → Prop where
  | last {text : Bytes} {one : PublicKey} (read : key text one []) : File key text [one]
  | more {text rest : Bytes} {one : PublicKey} {others : List PublicKey} (read : key text one (44 :: rest))
      (behind : File key rest others) : File key text (one :: others)

/-- Where a key of the text begins: the keys before it have all of their numbers, and a comma. -/
inductive Starts : Bytes → Bytes → Prop where
  | here (text : Bytes) : Starts text text
  | later {text next rest : Bytes} {one : PublicKey} (read : LooseKey text one (44 :: next))
      (behind : Starts next rest) : Starts text rest
/-! ## Reading the file -/

private theorem looselyOpened_length {version : Version} {text body : Bytes} (opened : LooselyOpened version text body) :
    body.length < text.length := by
  have skipped : (text.dropWhile isSpace).length ≤ text.length := (dropWhile_suffix _).length_le
  rcases version_tag version with rfl | ⟨n,tag⟩
  · rw [opened_v1.mp opened,length_cons] at skipped
    omega
  obtain ⟨tail,behind,starts,number,rfl⟩ := (opened_tag tag).mp opened
  rw [starts,length_cons] at skipped
  have blanks : (tail.dropWhile isSpace).length ≤ tail.length := (dropWhile_suffix _).length_le
  have digits := number_length number
  have brace := fscanf_length openFormat behind
  omega
theorem looseKey_length {text rest : Bytes} {key : PublicKey} (read : LooseKey text key rest) :
    rest.length < text.length := by
  obtain ⟨version,body,numbers,behind,opened,found,-,rfl⟩ := read
  have first := looselyOpened_length opened
  have second := matches_length found
  have third := fscanf_length endFormat behind
  omega

section Loop
variable {text : Bytes} {out : List LoadKeys.Certificate}

private theorem loadLoop_last {key : PublicKey} (read : LooseKey text key []) (fuel : Nat) :
    loadLoop (fuel + 1) text out = .returned (some (out ++ [pointers key])) (out.length + 1) := by
  rw [loadLoop,loadKey_ok.mpr ⟨key,read,rfl⟩]
theorem loadLoop_more {key : PublicKey} {rest : Bytes} (read : LooseKey text key (44 :: rest)) (fuel : Nat) :
    loadLoop (fuel + 1) text out = loadLoop fuel rest (out ++ [pointers key]) := by
  rw [loadLoop,loadKey_ok.mpr ⟨key,read,rfl⟩]
  exact if_pos rfl

private theorem loadLoop_loads {keys : List PublicKey} (file : File LooseKey text keys) :
    ∀ fuel out, text.length < fuel →
      loadLoop fuel text out = .returned (some (out ++ keys.map pointers)) (out.length + keys.length) := by
  induction file with
  | last read =>
    intro fuel out enough
    obtain ⟨fuel,rfl⟩ : ∃ n, fuel = n + 1 := ⟨fuel - 1,by omega⟩
    exact loadLoop_last read fuel
  | more read _ ih =>
    intro fuel out enough
    obtain ⟨fuel,rfl⟩ : ∃ n, fuel = n + 1 := ⟨fuel - 1,by omega⟩
    have shorter := looseKey_length read
    rw [length_cons] at shorter
    rw [loadLoop_more read,ih fuel _ (by omega),length_append,append_assoc]
    simp only [map_cons,singleton_append,length_cons,length_nil,Nat.add_assoc,Nat.zero_add,
      Nat.add_comm 1]
private theorem loadLoop_wild {rest : Bytes} (starts : Starts text rest) (stray : Stray rest) :
    ∀ fuel out, text.length < fuel → loadLoop fuel text out = .wild := by
  induction starts with
  | here text =>
    intro fuel out enough
    obtain ⟨fuel,rfl⟩ : ∃ n, fuel = n + 1 := ⟨fuel - 1,by omega⟩
    rw [loadLoop,loadKey_wild.mpr stray]
  | later read _ ih =>
    intro fuel out enough
    obtain ⟨fuel,rfl⟩ : ∃ n, fuel = n + 1 := ⟨fuel - 1,by omega⟩
    have shorter := looseKey_length read
    rw [length_cons] at shorter
    rw [loadLoop_more read]
    exact ih stray fuel _ (by omega)
private theorem loadLoop_fails (fuel : Nat) : ∀ text out, (∀ keys, ¬ File LooseKey text keys) →
    (∀ rest, Starts text rest → ¬ Stray rest) → loadLoop fuel text out = .returned none 0 := by
  induction fuel with
  | zero => exact fun _ _ _ _ => rfl
  | succ fuel ih =>
    intro text out noFile noStray
    rw [loadLoop]
    cases read : loadKey text with
    | error stop =>
      cases stop with
      | wild => exact absurd (loadKey_wild.mp read) (noStray text (.here text))
      | exit => rfl
    | ok found =>
      obtain ⟨cert,rest⟩ := found
      obtain ⟨key,loose,rfl⟩ := loadKey_ok.mp read
      cases rest with
      | nil => exact absurd (.last loose) (noFile [key])
      | cons c rest =>
        by_cases comma : c = 44
        · subst comma
          refine ih rest _ (fun keys file => noFile _ (.more loose file)) fun other starts => ?_
          exact noStray other (.later loose starts)
        · exact if_neg comma

end Loop

/-! ## Texts that are read right -/

theorem key_loose {text rest : Bytes} {key : PublicKey} (read : Key text key rest) : LooseKey text key rest := by
  obtain ⟨version,numbers,whole,holds⟩ := read
  obtain ⟨tag,body,others,opening,whole,split⟩ := matches_append.mp whole
  obtain ⟨found,behind,nothing,read,closing,rfl⟩ := matches_append.mp whole
  obtain rfl : nothing = [] := eq_nil_of_length_eq_zero (matches_values closing)
  rw [append_nil] at split
  have size : version.tag.length = tag.length := by
    rw [matches_values opening]
    cases version <;> rfl
  obtain ⟨same,rfl⟩ := append_inj split size
  subst same
  refine ⟨version,body,numbers,behind,?_,read,holds,by rw [closing]⟩
  rcases version_tag version with rfl | ⟨n,known⟩
  · exact opening
  have format : openingFormat version = tagFormat ++ openFormat := by
    cases version with
    | v1 => cases known
    | _ => rfl
  rw [format] at opening
  obtain ⟨first,mid,second,tagged,brace,split⟩ := matches_append.mp opening
  obtain rfl : second = [] := eq_nil_of_length_eq_zero (matches_values brace)
  rw [known,append_nil] at split
  subst split
  obtain ⟨tail,starts,number⟩ := tagFormat_iff.mp tagged
  exact (opened_tag known).mpr ⟨tail,mid,starts,number,by rw [brace]⟩
private theorem file_loose {text : Bytes} {keys : List PublicKey} (file : File Key text keys) : File LooseKey text keys := by
  induction file with
  | last read => exact .last (key_loose read)
  | more read _ ih => exact .more (key_loose read) ih

/-- No write goes through a key that is not allocated, and the array holds the keys of a text in the
    documented format; for any other text there is none. -/
structure Correct (text : Bytes) : Prop where
  safe : load_keys text ≠ .wild
  loads : ∀ keys, File Key text keys → load_keys text = .returned (some (keys.map pointers)) keys.length
  fails : (∀ keys, ¬ File Key text keys) → load_keys text = .returned none 0

/-- The text is read right exactly if keys whose numbers are all there have all of their braces, and
    every key with a number begins with `{` or `v`. -/
theorem load_keys_correct_iff (text : Bytes) : Correct text ↔
    (∀ keys, File LooseKey text keys → File Key text keys) ∧ ∀ rest, Starts text rest → ¬ Stray rest := by
  have loose {keys : List PublicKey} (file : File LooseKey text keys) :
      load_keys text = .returned (some (keys.map pointers)) keys.length := by
    have loaded := loadLoop_loads file (text.length + 1) [] (Nat.lt_succ_self _)
    rw [nil_append, length_nil, Nat.zero_add] at loaded
    exact loaded
  constructor
  · intro correct
    refine ⟨fun keys file => ?_, fun rest starts stray => ?_⟩
    · by_cases documented : ∃ others, File Key text others
      · obtain ⟨others, strict⟩ := documented
        have same := (loose file).symm.trans (correct.loads others strict)
        simp only [Outcome.returned.injEq, Option.some.injEq] at same
        rw [map_injective_iff.mpr pointers_injective same.1]
        exact strict
      · cases (loose file).symm.trans (correct.fails fun others strict => documented ⟨others, strict⟩)
    · exact correct.safe (loadLoop_wild starts stray _ _ (Nat.lt_succ_self _))
  · rintro ⟨braced, noStray⟩
    have fails (none : ∀ keys, ¬ File LooseKey text keys) : load_keys text = .returned Option.none 0 :=
      loadLoop_fails _ text [] none noStray
    refine ⟨fun wild => ?_, fun keys strict => loose (file_loose strict), fun none => ?_⟩
    rotate_left
    · exact fails fun keys file => none keys (braced keys file)
    by_cases read : ∃ keys, File LooseKey text keys
    · obtain ⟨keys, file⟩ := read
      cases (loose file).symm.trans wild
    · cases (fails fun keys file => read ⟨keys, file⟩).symm.trans wild

def zeros (count : Nat) : Bytes := (List.replicate count (ascii ",0")).flatten.drop 1
/-- A key of the first version without the two braces at its end. -/
def unclosed : Bytes :=
  ascii "\x7b64,0x0,\x7b" ++ zeros RSANUMWORDS ++ ascii "\x7d,\x7b" ++ zeros RSANUMWORDS
/-- A text that begins with `x5` is written through `NULL`; a key without its last braces is accepted. -/
theorem stray_and_unclosed_incorrect : ¬ Correct (ascii "x5") ∧ ¬ Correct unclosed := by
  constructor
  · intro correct
    exact correct.safe (by decide)
  intro correct
  have incomplete : ∀ version : Version, (fscanf (keyFormat version) unclosed).complete = false := by
    intro version
    cases version <;> decide +kernel
  have noKey {key : PublicKey} {rest : Bytes} : ¬ Key unclosed key rest := by
    rintro ⟨version, numbers, read, -⟩
    have complete := incomplete version
    rw [read] at complete
    cases complete
  have accepted : load_keys unclosed ≠ .returned none 0 := by decide +kernel
  refine accepted (correct.fails fun keys file => ?_)
  cases file with
  | last read => exact noKey read
  | more read => exact noKey read

end Recovery.KeyFiles
