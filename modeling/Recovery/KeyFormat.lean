import Mathlib.Data.List.DropRight
import Recovery.LoadKeys

/-!
The documented format of a public key, and the texts of which `load_keys` makes one.
-/
namespace Recovery.KeyFormat
open Memory Scanf LoadKeys List Option

/-! ## The format -/

inductive Version where
  | v1 | v2 | v3 | v4 | v5
  deriving DecidableEq, Repr

/-- The number behind the `v`; the first version has none. -/
def Version.tag : Version → List Int
  | v1 => []
  | v2 => [2]
  | v3 => [3]
  | v4 => [4]
  | v5 => [5]
def Version.exponent : Version → Option Int
  | v1 | v3 => some 3
  | v2 | v4 => some 65537
  | v5 => none
def Version.hashLen : Version → Int
  | v1 | v2 => Verifier.shaDigestSize
  | v3 | v4 | v5 => Verifier.sha256DigestSize

/-- A key as the verifier uses it; a coordinate is given by its bytes. -/
abbrev PublicKey := Verifier.Certificate RSAPublicKey Bytes
def pointers (key : PublicKey) : LoadKeys.Certificate :=
  match key.key with
  | .rsa rsa => ⟨key.hashLen, .RSA, some rsa, none⟩
  | .ec x y => ⟨key.hashLen, .EC, none, some ⟨x, y⟩⟩

theorem pointers_injective : Function.Injective pointers := by
  rintro ⟨hash,key | ⟨x,y⟩⟩ ⟨hash',key' | ⟨x',y'⟩⟩ same <;> cases same <;> rfl

def openFormat : List Directive := [.space, .literal 123]
def tagFormat : List Directive := [.space, .literal 118, .number .d]
def wordsFormat (count : Nat) : List Directive := (List.replicate count wordFormat).flatten
def rowsFormat (count : Nat) : List Directive := wordsFormat count ++ (rowFormat ++ wordsFormat count)
def numbersFormat : Version → List Directive
  | .v5 => ecFormat ++ rowsFormat (P256_NBYTES - 1)
  | _ => rsaFormat ++ rowsFormat (RSANUMWORDS - 1)
def openingFormat : Version → List Directive
  | .v1 => openFormat
  | _ => tagFormat ++ openFormat
def keyFormat (version : Version) : List Directive := openingFormat version ++ (numbersFormat version ++ endFormat)

def keyOf (version : Version) (numbers : List Int) : Option PublicKey :=
  match version.exponent, numbers with
  | some exponent, len :: n0inv :: words =>
    if len = RSANUMWORDS then
      some ⟨version.hashLen, .rsa ⟨len, n0inv, words.take RSANUMWORDS, words.drop RSANUMWORDS, exponent⟩⟩
    else none
  | none, len :: words =>
    if len = P256_NBYTES then
      some ⟨version.hashLen, .ec (coordinate (words.take P256_NBYTES)) (coordinate (words.drop P256_NBYTES))⟩
    else none
  | _, _ => none

/-- The text begins with a key in the documented format; the rest follows behind blanks. -/
def Key (text : Bytes) (key : PublicKey) (rest : Bytes) : Prop :=
  ∃ version numbers, Matches (keyFormat version) text (version.tag ++ numbers) rest ∧ keyOf version numbers = some key

/-- The text begins with the opening of a key, in which the brace behind a version may be missing. -/
def LooselyOpened (version : Version) (text body : Bytes) : Prop :=
  match version with
  | .v1 => Matches openFormat text [] body
  | _ => ∃ behind, Matches tagFormat text version.tag behind ∧ body = (fscanf openFormat behind).rest
/-- The text begins with a key, but for the braces: the one behind a version and those at the end may be
    missing. The rest is what follows the braces that are there. -/
def LooseKey (text : Bytes) (key : PublicKey) (rest : Bytes) : Prop :=
  ∃ version body numbers behind, LooselyOpened version text body ∧ Matches (numbersFormat version) body numbers behind ∧
    keyOf version numbers = some key ∧ rest = (fscanf endFormat behind).rest

/-- Another character than `{` or `v` stands before a number. -/
def Stray (text : Bytes) : Prop :=
  ∃ c behind, text.dropWhile isSpace = c :: behind ∧ c ≠ 123 ∧ c ≠ 118 ∧
    (number .i (behind.dropWhile isSpace)).isSome = true

/-! ## Reading the numbers -/

def orExit (scan : Scan) : Except Stop (List Int × Bytes) :=
  if scan.complete then .ok (scan.assigned, scan.rest) else .error .exit

variable {text rest : Bytes}

theorem orExit_matches {format : List Directive} {values : List Int}
    (read : Matches format text values rest) : orExit (fscanf format text) = .ok (values, rest) := by
  rw [read]
  rfl
theorem orExit_fails {scan : Scan} (fails : scan.complete = false) : orExit scan = .error .exit := by
  simp [orExit,fails]
theorem orExit_append (format other : List Directive) (text : Bytes) : orExit (fscanf (format ++ other) text) =
    orExit (fscanf format text) >>= fun first => orExit (fscanf other first.2) >>= fun second =>
      .ok (first.1 ++ second.1, second.2) := by
  rw [fscanf_append,Scan.andThen]
  cases one : (fscanf format text).complete with
  | false => simp [orExit,one,bind,Except.bind]
  | true =>
    cases two : (fscanf other (fscanf format text).rest).complete <;> simp [orExit,one,two,bind,Except.bind]
theorem wordsFormat_succ (count : Nat) : wordsFormat (count + 1) = wordFormat ++ wordsFormat count := by
  rw [wordsFormat,replicate_succ,flatten_cons,wordsFormat]
private theorem wordsFormat_conversions (count : Nat) : conversions (wordsFormat count) = count := by
  induction count with
  | zero => rfl
  | succ count ih =>
    rw [wordsFormat_succ,conversions_append,ih]
    exact Nat.add_comm 1 count

theorem readWords_eq (count : Nat) (text : Bytes) : readWords count text = orExit (fscanf (wordsFormat count) text) := by
  induction count generalizing text with
  | zero => rfl
  | succ count ih =>
    rw [wordsFormat_succ,orExit_append,readWords]
    rcases scan_cases wordFormat.dropLast .u text with ⟨values,rest,one,read⟩ | ⟨none,fails⟩
    · obtain ⟨word,rfl⟩ := length_eq_one_iff.mp one
      have read : fscanf wordFormat text = ⟨[word],rest,true⟩ := read
      rw [read,ih]
      rfl
    · have none : (fscanf wordFormat text).assigned = [] := eq_nil_of_length_eq_zero (Nat.le_zero.mp none)
      have fails : (fscanf wordFormat text).complete = false := fails
      rw [none,orExit_fails fails]
      rfl
theorem readRows_eq (count : Nat) (text : Bytes) : readRows count text =
    orExit (fscanf (rowsFormat count) text) >>= fun found =>
      .ok (found.1.take count, found.1.drop count, (fscanf endFormat found.2).rest) := by
  rw [readRows,rowsFormat,orExit_append,readWords_eq]
  cases complete : (fscanf (wordsFormat count) text).complete with
  | false =>
    rw [orExit_fails complete]
    rfl
  | true =>
    have size : (fscanf (wordsFormat count) text).assigned.length = count := by
      rw [(assigned_length _ _).2 complete,wordsFormat_conversions]
    rw [orExit,if_pos complete]
    generalize (fscanf (wordsFormat count) text).rest = mid
    simp only [orExit_append,readWords_eq,bind,Except.bind]
    rcases scan_cases rowFormat.dropLast .u mid with ⟨values,rest,one,read⟩ | ⟨none,fails⟩
    · obtain ⟨word,rfl⟩ := length_eq_one_iff.mp one
      have read : fscanf rowFormat mid = ⟨[word],rest,true⟩ := read
      rw [read]
      cases more : (fscanf (wordsFormat count) rest).complete <;>
        simp [orExit,more,take_left' size,drop_left' size,pure,Except.pure]
    · have none : (fscanf rowFormat mid).assigned = [] := eq_nil_of_length_eq_zero (Nat.le_zero.mp none)
      have fails : (fscanf rowFormat mid).complete = false := fails
      rw [none,orExit_fails fails]
      rfl

/-! ## Reading a key -/

def made (version : Version) : LoadKeys.Certificate :=
  match version.exponent with
  | some exponent => ⟨version.hashLen, .RSA, some (newRSA exponent), none⟩
  | none => ⟨version.hashLen, .EC, none, some newEC⟩

variable {cert : LoadKeys.Certificate} {version : Version} {body : Bytes} {behind : Bytes}

theorem certificate_eq {version : Int} :
    certificate version = some cert ↔ ∃ v : Version, v.tag = [version] ∧ cert = made v := by
  constructor
  · intro known
    unfold certificate at known
    split at known
    · exact ⟨.v2,rfl,(some.inj known).symm⟩
    · exact ⟨.v3,rfl,(some.inj known).symm⟩
    · exact ⟨.v4,rfl,(some.inj known).symm⟩
    · exact ⟨.v5,rfl,(some.inj known).symm⟩
    · cases known
  · rintro ⟨v,tag,rfl⟩
    cases v <;> cases tag <;> rfl

private theorem numbersFormat_rsa {exponent : Int} (known : version.exponent = some exponent) :
    numbersFormat version = rsaFormat ++ rowsFormat (RSANUMWORDS - 1) := by
  cases version <;> first | rfl | cases known

/-- The key that the code stores for the numbers it found. -/
def store (version : Version) (found : List Int × Bytes) : Except Stop (LoadKeys.Certificate × Bytes) :=
  match keyOf version found.1 with
  | some key => .ok (pointers key, (fscanf endFormat found.2).rest)
  | none => .error .exit

private theorem keyOf_rsa {exponent : Int} (known : version.exponent = some exponent) (len n0inv : Int)
    (words : List Int) : keyOf version (len :: n0inv :: words) = if len = RSANUMWORDS then
      some ⟨version.hashLen,.rsa ⟨len,n0inv,words.take RSANUMWORDS,words.drop RSANUMWORDS,exponent⟩⟩
    else none := by
  simp only [keyOf,known]
theorem readKey_made (version : Version) (text : Bytes) :
    readKey (made version) text = orExit (fscanf (numbersFormat version) text) >>= store version := by
  cases known : version.exponent with
  | some exponent =>
    rw [numbersFormat_rsa known,orExit_append]
    simp only [made,known,readKey,readRSA,readRows_eq]
    rcases scan_cases rsaFormat.dropLast .u text with ⟨values,rest,three,read⟩ | ⟨few,fails⟩
    · obtain ⟨len,n0inv,first,rfl⟩ := length_eq_three.mp three
      have read : Matches rsaFormat text [len,n0inv,first] rest := read
      rw [orExit_matches read,read]
      cases more : (fscanf (rowsFormat (RSANUMWORDS - 1)) rest).complete with
      | false => simp only [orExit_fails more,ite_self,bind,Except.bind,throw,throwThe,MonadExceptOf.throw]
      | true =>
        simp only [orExit,more,if_true,bind,Except.bind,store,cons_append,keyOf_rsa known]
        by_cases fits : len = RSANUMWORDS
        · rw [if_neg (Decidable.not_not.mpr fits),if_pos fits]
          rfl
        · rw [if_pos fits,if_neg fits]
          rfl
    · have fails : (fscanf rsaFormat text).complete = false := fails
      have few : (fscanf rsaFormat text).assigned.length ≤ 2 := few
      rw [orExit_fails fails]
      generalize (fscanf rsaFormat text).assigned = values at few ⊢
      rcases values with _ | ⟨len,_ | ⟨n0inv,_ | ⟨first,others⟩⟩⟩
      · rfl
      · rfl
      · rfl
      · simp at few
  | none =>
    obtain rfl : version = .v5 := by cases version <;> first | rfl | cases known
    rw [numbersFormat,orExit_append]
    simp only [made,known,readKey,readEC,readRows_eq]
    rcases scan_cases ecFormat.dropLast .u text with ⟨values,rest,two,read⟩ | ⟨few,fails⟩
    · obtain ⟨len,first,rfl⟩ := length_eq_two.mp two
      have read : Matches ecFormat text [len,first] rest := read
      rw [orExit_matches read,read]
      cases more : (fscanf (rowsFormat (P256_NBYTES - 1)) rest).complete with
      | false => simp only [orExit_fails more,ite_self,bind,Except.bind,throw,throwThe,MonadExceptOf.throw]
      | true =>
        simp only [orExit,more,if_true,bind,Except.bind,store,cons_append,keyOf,known]
        by_cases fits : len = P256_NBYTES
        · rw [if_neg (Decidable.not_not.mpr fits),if_pos fits]
          rfl
        · rw [if_pos fits,if_neg fits]
          rfl
    · have fails : (fscanf ecFormat text).complete = false := fails
      have few : (fscanf ecFormat text).assigned.length ≤ 1 := few
      rw [orExit_fails fails]
      generalize (fscanf ecFormat text).assigned = values at few ⊢
      rcases values with _ | ⟨len,_ | ⟨first,others⟩⟩
      · rfl
      · rfl
      · simp at few
theorem readKey_ok :
    readKey (made version) text = .ok (cert, rest) ↔ ∃ numbers behind key, Matches (numbersFormat version) text numbers
      behind ∧ keyOf version numbers = some key ∧ rest = (fscanf endFormat behind).rest ∧ cert = pointers key := by
  rw [readKey_made]
  constructor
  · intro read
    cases complete : (fscanf (numbersFormat version) text).complete with
    | false =>
      rw [orExit_fails complete] at read
      cases read
    | true =>
      rw [orExit,if_pos complete] at read
      simp only [store,bind,Except.bind] at read
      split at read
      · rename_i key found
        cases read
        exact ⟨_,_,key,by rw [Matches,← complete],found,rfl,rfl⟩
      · cases read
  · rintro ⟨numbers,behind,key,read,found,rfl,rfl⟩
    rw [orExit_matches read]
    simp only [store,bind,Except.bind,found]
theorem readKey_safe (version : Version) (text : Bytes) : readKey (made version) text ≠ .error .wild := by
  rw [readKey_made,orExit]
  split
  · simp only [store,bind,Except.bind]
    split <;> simp
  · simp [bind,Except.bind]

private theorem charFormat_cons {c : UInt8} (starts : text.dropWhile isSpace = c :: behind) :
    fscanf charFormat text = ⟨[(c.toNat : Int)],behind,true⟩ := by
  rw [charFormat,fscanf,starts]
  rfl
private theorem openFormat_iff :
    Matches openFormat text [] body ↔ text.dropWhile isSpace = 123 :: body := by
  rw [Matches,openFormat,fscanf]
  cases text.dropWhile isSpace with
  | nil => simp [fscanf]
  | cons c rest => by_cases same : c = 123 <;> simp [fscanf,same]
theorem tagFormat_iff {version : Int} : Matches tagFormat text [version] behind ↔
    ∃ tail, text.dropWhile isSpace = 118 :: tail ∧ number .d (tail.dropWhile isSpace) = some (version, behind) := by
  rw [Matches,tagFormat,fscanf]
  cases text.dropWhile isSpace with
  | nil => simp [fscanf]
  | cons c tail =>
    by_cases same : c = 118
    · subst same
      rw [fscanf,if_pos rfl,fscanf]
      cases found : number .d (tail.dropWhile isSpace) with
      | none => simp [found]
      | some result => simp [fscanf,Scan.assign,Prod.ext_iff,found]
    · simp [fscanf,same]
theorem versionFormat_some {version : Int}
    (found : number .d (text.dropWhile isSpace) = some (version, behind)) :
    (fscanf versionFormat text).assigned = [version] ∧
      (fscanf versionFormat text).rest = (fscanf openFormat behind).rest := by
  have nothing : (fscanf openFormat behind).assigned = [] :=
    eq_nil_of_length_eq_zero (Nat.le_zero.mp (assigned_length openFormat behind).1)
  have read : fscanf versionFormat text = (fscanf openFormat behind).assign version := by
    rw [versionFormat,fscanf,found]
    rfl
  rw [read]
  simp [nothing]

theorem loadKey_cons {c : UInt8} (starts : text.dropWhile isSpace = c :: behind) :
    loadKey text =
      if c = 123 then readKey (made .v1) behind
      else if c = 118 then
        match number .d (behind.dropWhile isSpace) with
        | none => throw .exit
        | some (version, tail) =>
          match certificate version with
          | some cert => readKey cert (fscanf openFormat tail).rest
          | none => throw .exit
      else readKey ⟨0,.RSA,none,none⟩ behind := by
  have byte (d : UInt8) : ((c.toNat : Int) = d.toNat) ↔ c = d := by
    rw [Int.ofNat_inj,UInt8.toNat_inj]
  have brace : ((c.toNat : Int) = 123) ↔ c = 123 := byte 123
  have letter : ((c.toNat : Int) = 118) ↔ c = 118 := byte 118
  unfold loadKey
  rw [charFormat_cons starts]
  simp only [brace,letter]
  refine if_congr Iff.rfl rfl (if_congr Iff.rfl ?_ rfl)
  cases found : number .d (behind.dropWhile isSpace) with
  | none =>
    have nothing : (fscanf versionFormat behind).assigned = [] := by rw [versionFormat,fscanf,found]
    rw [nothing]
  | some result =>
    obtain ⟨version,tail⟩ := result
    exact (versionFormat_some found).1 ▸ (versionFormat_some found).2 ▸ rfl
theorem loadKey_nil (empty : text.dropWhile isSpace = []) : loadKey text = throw .exit := by
  have nothing : (fscanf charFormat text).assigned = [] := by
    rw [charFormat,fscanf,empty]
    rfl
  rw [loadKey,nothing]

theorem opened_v1 : LooselyOpened .v1 text body ↔ text.dropWhile isSpace = 123 :: body :=
  openFormat_iff
theorem opened_tag {n : Int} (tag : version.tag = [n]) :
    LooselyOpened version text body ↔ ∃ tail behind, text.dropWhile isSpace = 118 :: tail ∧
      number .d (tail.dropWhile isSpace) = some (n, behind) ∧ body = (fscanf openFormat behind).rest := by
  have unfolded : LooselyOpened version text body ↔
      ∃ behind, Matches tagFormat text [n] behind ∧ body = (fscanf openFormat behind).rest := by
    rw [← tag]
    cases version with
    | v1 => cases tag
    | _ => rfl
  rw [unfolded]
  constructor
  · rintro ⟨behind,read,same⟩
    obtain ⟨tail,starts,found⟩ := tagFormat_iff.mp read
    exact ⟨tail,behind,starts,found,same⟩
  · rintro ⟨tail,behind,starts,found,same⟩
    exact ⟨behind,tagFormat_iff.mpr ⟨tail,starts,found⟩,same⟩
theorem version_tag (version : Version) : version = .v1 ∨ ∃ n, version.tag = [n] := by
  cases version with
  | v1 => exact .inl rfl
  | _ => exact .inr ⟨_,rfl⟩

private theorem unallocated_fails (text : Bytes) :
    readKey ⟨0,.RSA,none,none⟩ text ≠ .ok (cert, rest) := by
  simp only [readKey,readRSA]
  cases (fscanf rsaFormat text).assigned with
  | nil => exact nofun
  | cons number numbers => exact nofun

theorem loadKey_ok :
    loadKey text = .ok (cert, rest) ↔ ∃ key, LooseKey text key rest ∧ cert = pointers key := by
  constructor
  · intro read
    cases starts : text.dropWhile isSpace with
    | nil =>
      rw [loadKey_nil starts] at read
      cases read
    | cons c behind =>
      rw [loadKey_cons starts] at read
      split_ifs at read with brace letter
      · subst brace
        obtain ⟨numbers,tail,key,found,holds,same,stored⟩ := readKey_ok.mp read
        exact ⟨key,⟨.v1,behind,numbers,tail,opened_v1.mpr starts,found,holds,same⟩,stored⟩
      · subst letter
        split at read
        · cases read
        rename_i n tail number
        split at read
        · rename_i cert known
          obtain ⟨version,tag,rfl⟩ := certificate_eq.mp known
          obtain ⟨numbers,after,key,found,holds,same,stored⟩ := readKey_ok.mp read
          have opened := (opened_tag tag).mpr ⟨behind,tail,starts,number,rfl⟩
          exact ⟨key,⟨version,_,numbers,after,opened,found,holds,same⟩,stored⟩
        · cases read
      · exact absurd read (unallocated_fails behind)
  · rintro ⟨key,⟨version,body,numbers,after,opened,found,holds,rfl⟩,rfl⟩
    have read : readKey (made version) body = .ok (pointers key,_) :=
      readKey_ok.mpr ⟨numbers,after,key,found,holds,rfl,rfl⟩
    rcases version_tag version with rfl | ⟨n,tag⟩
    · rw [loadKey_cons (opened_v1.mp opened),if_pos rfl]
      exact read
    obtain ⟨tail,behind,starts,number,rfl⟩ := (opened_tag tag).mp opened
    have known : certificate n = some (made version) := certificate_eq.mpr ⟨version,tag,rfl⟩
    rw [loadKey_cons starts,if_neg (by decide),if_pos rfl,number]
    dsimp only
    rw [known]
    exact read
theorem loadKey_wild : loadKey text = .error .wild ↔ Stray text := by
  constructor
  · intro wild
    cases starts : text.dropWhile isSpace with
    | nil =>
      rw [loadKey_nil starts] at wild
      cases wild
    | cons c behind =>
      rw [loadKey_cons starts] at wild
      split_ifs at wild with brace letter
      · exact absurd wild (readKey_safe .v1 behind)
      · split at wild
        · cases wild
        split at wild
        · rename_i cert known
          obtain ⟨version,-,rfl⟩ := certificate_eq.mp known
          exact absurd wild (readKey_safe version _)
        · cases wild
      · refine ⟨c,behind,starts,brace,letter,?_⟩
        by_contra missing
        have nothing : (fscanf rsaFormat behind).assigned = [] := by
          rw [rsaFormat,fscanf,fscanf,dropWhile_idempotent isSpace behind,
            not_isSome_iff_eq_none.mp missing]
        simp only [readKey,readRSA,nothing] at wild
        cases wild
  · rintro ⟨c,behind,starts,brace,letter,there⟩
    obtain ⟨⟨value,tail⟩,found⟩ := isSome_iff_exists.mp there
    rw [loadKey_cons starts,if_neg brace,if_neg letter]
    have some : ∃ more, (fscanf rsaFormat behind).assigned = value :: more := by
      rw [rsaFormat,fscanf,fscanf,dropWhile_idempotent isSpace behind,found]
      exact ⟨_,rfl⟩
    obtain ⟨more,assigned⟩ := some
    simp only [readKey,readRSA,assigned]
    rfl

end Recovery.KeyFormat
