import Recovery.Load

/-!
SHA-1 texts: `ParseSha1` of applypatch.c and `PrintSha1` of the updater.
-/
namespace Recovery.Digests
open Memory Retouch Load List Option

def alphabet : Path := "0123456789abcdef".toList
/-- `PrintSha1`: two digits for each byte. -/
def printSha1 (digest : Bytes) : Path :=
  digest.flatMap fun b => [alphabet.getD (b.toNat >>> 4 &&& 0xf) ' ', alphabet.getD (b.toNat &&& 0xf) ' ']

structure Digits (n : Nat) (digits : Path) : Prop where
  length : digits.length = 2 * n
  hex : ∀ c ∈ digits, (hexDigit c).isSome
/-- What the comment above `ParseSha1` describes: the digits, alone or in front of a colon. -/
def Documented (str : Path) : Prop :=
  ∃ digits rest, str = digits ++ rest ∧ Digits 20 digits ∧ (rest = [] ∨ ∃ more, rest = ':' :: more)
def WithColon (str : Path) : Prop := ∃ digits more, str = digits ++ ':' :: more ∧ Digits 20 digits

/-! ## Digits -/

theorem lower_table : ∀ n < 103, ∀ h ∈ hexDigit (Char.ofNat n), h < 16 ∧ alphabet.getD h ' ' = (Char.ofNat n).toLower := by
  decide +kernel
theorem hexDigit_lower {c : Char} {h : Nat} (digit : hexDigit c = some h) : h < 16 ∧ alphabet.getD h ' ' = c.toLower := by
  have below {b : Char} (less : c ≤ b) : c.toNat ≤ b.toNat := less
  have small : c.toNat ≤ 'f'.toNat := by
    unfold hexDigit at digit
    split_ifs at digit with number lower upper
    · exact (below number.2).trans (by decide)
    · exact below lower.2
    · exact (below upper.2).trans (by decide)
  rw [← Char.ofNat_toNat c] at digit ⊢
  exact lower_table c.toNat (Nat.lt_succ_of_le small) h digit
theorem hexDigit_alphabet : ∀ h < 16, hexDigit (alphabet.getD h ' ') = some h := by decide

theorem nibbles : ∀ h < 16, ∀ l < 16, (UInt8.ofNat (h <<< 4 ||| l)).toNat >>> 4 &&& 0xf = h ∧
    (UInt8.ofNat (h <<< 4 ||| l)).toNat &&& 0xf = l := by decide +kernel
theorem byte_nibbles : ∀ n < 256, n >>> 4 &&& 0xf < 16 ∧ n &&& 0xf < 16 ∧ (n >>> 4 &&& 0xf) <<< 4 ||| n &&& 0xf = n := by
  decide +kernel

theorem hexBytes_cons {n h l : Nat} {high low : Char} {rest : Path} (first : hexDigit high = some h)
    (second : hexDigit low = some l) : hexBytes (n + 1) (high :: low :: rest) =
      (hexBytes n rest).map fun r => (UInt8.ofNat (h <<< 4 ||| l) :: r.1, r.2) := by
  rw [hexBytes,first,second]
  cases hexBytes n rest <;> rfl

theorem hexBytes_digits {n : Nat} {digits : Path} (are : Digits n digits) (rest : Path) :
    ∃ digest, hexBytes n (digits ++ rest) = some (digest, rest) ∧ printSha1 digest = digits.map Char.toLower := by
  induction n generalizing digits with
  | zero =>
    obtain rfl := length_eq_zero_iff.mp are.length
    exact ⟨[],rfl,rfl⟩
  | succ n ih =>
    match digits, are with
    | high :: low :: digits, are =>
      obtain ⟨h,first⟩ := isSome_iff_exists.mp (are.hex high (by simp))
      obtain ⟨l,second⟩ := isSome_iff_exists.mp (are.hex low (by simp))
      have later : Digits n digits :=
        ⟨by have := are.length; simp at this; omega,fun c member => are.hex c (by simp [member])⟩
      obtain ⟨digest,parsed,printed⟩ := ih later
      obtain ⟨small,upper⟩ := hexDigit_lower first
      obtain ⟨small',lower⟩ := hexDigit_lower second
      obtain ⟨left,right⟩ := nibbles h small l small'
      refine ⟨UInt8.ofNat (h <<< 4 ||| l) :: digest,?_,?_⟩
      · rw [cons_append,cons_append,hexBytes_cons first second,parsed]
        rfl
      · rw [printSha1,flatMap_cons,left,right,upper,lower,← printSha1,printed]
        rfl
    | [], are => cases are.length
    | [_], are =>
      have := are.length
      simp at this
      omega

theorem digits_of_hexBytes {n : Nat} {str rest : Path} {digest : Bytes} (parsed : hexBytes n str = some (digest, rest)) :
    ∃ digits, str = digits ++ rest ∧ Digits n digits := by
  induction n generalizing str digest with
  | zero =>
    cases parsed
    exact ⟨[],rfl,rfl,nofun⟩
  | succ n ih =>
    match str with
    | high :: low :: str =>
      cases first : hexDigit high with
      | none => simp [hexBytes,first] at parsed
      | some h =>
        cases second : hexDigit low with
        | none => simp [hexBytes,first,second] at parsed
        | some l =>
          rw [hexBytes_cons first second] at parsed
          obtain ⟨⟨later,tail⟩,found,same⟩ := map_eq_some_iff.mp parsed
          obtain rfl := (Prod.mk.inj same).2
          obtain ⟨digits,rfl,are⟩ := ih found
          exact ⟨high :: low :: digits,rfl,by simp [are.length]; omega,by simpa [first,second] using are.hex⟩
    | [] | [_] => simp [hexBytes] at parsed

theorem hexBytes_print (digest : Bytes) (rest : Path) :
    hexBytes digest.length (printSha1 digest ++ rest) = some (digest, rest) := by
  induction digest with
  | nil => rfl
  | cons b digest ih =>
    obtain ⟨high,low,same⟩ := byte_nibbles b.toNat b.toNat_lt
    have printed : printSha1 (b :: digest) ++ rest = _ :: _ :: (printSha1 digest ++ rest) := rfl
    rw [printed,length_cons,hexBytes_cons (hexDigit_alphabet _ high) (hexDigit_alphabet _ low),ih,same,
      UInt8.ofNat_toNat]
    rfl

/-! ## The texts that are accepted -/

theorem parseSha1_iff {str : Path} {digest : Bytes} :
    parseSha1 str = some digest ↔ hexBytes 20 str = some (digest, []) := by
  unfold parseSha1
  split
  · rename_i found
    simp [found]
  · rename_i other
    exact ⟨nofun,fun found => absurd found (other digest)⟩

theorem accepted_iff (str : Path) : (parseSha1 str).isSome ↔ Digits 20 str := by
  rw [isSome_iff_exists]
  constructor
  · rintro ⟨digest,parsed⟩
    obtain ⟨digits,same,are⟩ := digits_of_hexBytes (parseSha1_iff.mp parsed)
    rwa [same,append_nil]
  · intro are
    obtain ⟨digest,parsed,_⟩ := hexBytes_digits are []
    rw [append_nil] at parsed
    exact ⟨digest,parseSha1_iff.mpr parsed⟩

structure Right (str : Path) (digest : Bytes) : Prop where
  accepts : (parseSha1 str).isSome ↔ Documented str
  parses : digest.length = 20 → parseSha1 (printSha1 digest) = some digest
  prints : ∀ parsed, parseSha1 str = some parsed → printSha1 parsed = (str.take 40).map Char.toLower

theorem sha1_texts_right_iff (str : Path) (digest : Bytes) : Right str digest ↔ ¬ WithColon str := by
  constructor
  · rintro right ⟨digits, more, rfl, are⟩
    have short := (accepted_iff _).mp (right.accepts.mpr ⟨digits, _, rfl, are, .inr ⟨more, rfl⟩⟩)
    have length := short.length
    rw [length_append, are.length, length_cons] at length
    omega
  · intro plain
    refine ⟨(accepted_iff str).trans ⟨fun are => ⟨str, [], by simp, are, .inl rfl⟩, ?_⟩, fun length => ?_, ?_⟩
    · rintro ⟨digits, rest, rfl, are, rfl | ⟨more, rfl⟩⟩
      · rwa [append_nil]
      · exact absurd ⟨digits, more, rfl, are⟩ plain
    · have parsed := hexBytes_print digest []
      rw [length, append_nil] at parsed
      exact parseSha1_iff.mpr parsed
    · intro parsed found
      have are := (accepted_iff str).mp (Option.isSome_iff_exists.mpr ⟨parsed, found⟩)
      obtain ⟨digest, same, printed⟩ := hexBytes_digits are []
      rw [append_nil, parseSha1_iff.mp found] at same
      obtain rfl := (Prod.mk.inj (Option.some.inj same)).1
      rw [printed, take_of_length_le are.length.le]

/-- Forty zeros and a colon are refused. -/
theorem colon_not_right : ¬ Right (List.replicate 40 '0' ++ [':']) [] := by
  rw [sha1_texts_right_iff, not_not]
  exact ⟨_, [], rfl, by simp, by simp; decide⟩

end Recovery.Digests
