import Recovery.Scanf
import Recovery.Verifier

/-!
`load_keys` (verifier.cpp): the file of the public keys, read with `fscanf`. Only the number of
conversions is looked at, so that braces may be missing, and the key is not allocated if the
first character is neither `{` nor `v`. Allocations succeed.
-/
namespace Recovery.LoadKeys
open Memory Scanf

def RSANUMWORDS : Nat := 64
def P256_NBYTES : Nat := 32

structure RSAPublicKey where
  len : Int
  n0inv : Int
  n : List Int
  rr : List Int
  exponent : Int
  deriving DecidableEq, Repr

/-- The bytes of the coordinates, as `p256_from_bin` gets them. -/
structure ECPublicKey where
  x : Bytes
  y : Bytes
  deriving DecidableEq, Repr

inductive KeyType where
  | RSA
  | EC
  deriving DecidableEq, Repr

/-- `rsa` and `ec` are pointers. -/
structure Certificate where
  hash_len : Int
  key_type : KeyType
  rsa : Option RSAPublicKey
  ec : Option ECPublicKey
  deriving DecidableEq, Repr

/-- Why a key is not read: the jump to `exit`, or a write through a key that is not allocated. -/
inductive Stop where
  | exit
  | wild
  deriving DecidableEq, Repr

/-! ## Formats -/

/-- `" %c"` -/
def charFormat : List Directive := [.space, .char]
/-- `"%d {"` -/
def versionFormat : List Directive := [.number .d, .space, .literal 123]
/-- `" %i , 0x%x , { %u"` -/
def rsaFormat : List Directive :=
  [.space, .number .i, .space, .literal 44, .space, .literal 48, .literal 120, .number .x, .space, .literal 44,
    .space, .literal 123, .space, .number .u]
/-- `" %i , { %u"` -/
def ecFormat : List Directive := [.space, .number .i, .space, .literal 44, .space, .literal 123, .space, .number .u]
/-- `" , %u"` -/
def wordFormat : List Directive := [.space, .literal 44, .space, .number .u]
/-- `" } , { %u"` -/
def rowFormat : List Directive :=
  [.space, .literal 125, .space, .literal 44, .space, .literal 123, .space, .number .u]
/-- `" } } "` -/
def endFormat : List Directive := [.space, .literal 125, .space, .literal 125, .space]

/-! ## One key -/

def readWords : Nat → Bytes → Except Stop (List Int × Bytes)
  | 0, text => pure ([], text)
  | count + 1, text =>
    match (fscanf wordFormat text).assigned with
    | [word] => do
      let (words, rest) ← readWords count (fscanf wordFormat text).rest
      pure (word :: words, rest)
    | _ => throw .exit
/-- The rest of the first row, the second row, and the braces at the end. -/
def readRows (count : Nat) (text : Bytes) : Except Stop (List Int × List Int × Bytes) := do
  let (words, text) ← readWords count text
  match (fscanf rowFormat text).assigned with
  | [first] => do
    let (others, text) ← readWords count (fscanf rowFormat text).rest
    pure (words, first :: others, (fscanf endFormat text).rest)
  | _ => throw .exit

def readRSA (key : Option RSAPublicKey) (text : Bytes) : Except Stop (RSAPublicKey × Bytes) :=
  match key, (fscanf rsaFormat text).assigned with
  | none, [] => throw .exit
  | none, _ :: _ => throw .wild
  | some key, [len, n0inv, first] =>
    if len ≠ RSANUMWORDS then throw .exit
    else do
      let (words, rr, rest) ← readRows (RSANUMWORDS - 1) (fscanf rsaFormat text).rest
      pure ({ key with len := len, n0inv := n0inv, n := first :: words, rr := rr }, rest)
  | some _, _ => throw .exit

/-- The bytes of a coordinate, of which the last one comes first. -/
def coordinate (words : List Int) : Bytes := (words.map fun word => UInt8.ofNat (unsigned 8 word)).reverse
/-- Reads the coordinates, and then stores them in the key, if there is one. -/
def readEC (key : Option ECPublicKey) (text : Bytes) : Except Stop (ECPublicKey × Bytes) :=
  match (fscanf ecFormat text).assigned with
  | [key_len, first] =>
    if key_len ≠ P256_NBYTES then throw .exit
    else do
      let (words, others, rest) ← readRows (P256_NBYTES - 1) (fscanf ecFormat text).rest
      if key.isNone then throw .wild
      pure (⟨coordinate (first :: words), coordinate others⟩, rest)
  | _ => throw .exit

def newRSA (exponent : Int) : RSAPublicKey := ⟨0, 0, [], [], exponent⟩
def newEC : ECPublicKey := ⟨[], []⟩
def readKey (cert : Certificate) (text : Bytes) : Except Stop (Certificate × Bytes) :=
  match cert.key_type with
  | .RSA => do
    let (key, rest) ← readRSA cert.rsa text
    pure ({ cert with rsa := some key }, rest)
  | .EC => do
    let (key, rest) ← readEC cert.ec text
    pure ({ cert with ec := some key }, rest)
/-- The certificate that is made for a version, if there is such a version. -/
def certificate : Int → Option Certificate
  | 2 => some ⟨Verifier.shaDigestSize, .RSA, some (newRSA 65537), none⟩
  | 3 => some ⟨Verifier.sha256DigestSize, .RSA, some (newRSA 3), none⟩
  | 4 => some ⟨Verifier.sha256DigestSize, .RSA, some (newRSA 65537), none⟩
  | 5 => some ⟨Verifier.sha256DigestSize, .EC, none, some newEC⟩
  | _ => none
/-- One round of the loop, up to the character behind the key. -/
def loadKey (text : Bytes) : Except Stop (Certificate × Bytes) :=
  match (fscanf charFormat text).assigned with
  | [start_char] =>
    if start_char = 123 then
      readKey ⟨Verifier.shaDigestSize, .RSA, some (newRSA 3), none⟩ (fscanf charFormat text).rest
    else if start_char = 118 then
      match (fscanf versionFormat (fscanf charFormat text).rest).assigned with
      | [version] =>
        match certificate version with
        | some cert => readKey cert (fscanf versionFormat (fscanf charFormat text).rest).rest
        | none => throw .exit
      | _ => throw .exit
    else readKey ⟨0, .RSA, none, none⟩ (fscanf charFormat text).rest
  | _ => throw .exit

/-! ## The file -/

/-- What a call comes to: a write through `NULL`, or the array and `*numKeys`. -/
inductive Outcome where
  | wild
  | returned (out : Option (List Certificate)) (numKeys : Nat)
  deriving DecidableEq, Repr

/-- The loop, with the keys read so far. Every round takes a character, so `fuel` can be the length of
    the text. -/
def loadLoop : Nat → Bytes → List Certificate → Outcome
  | 0, _, _ => .returned none 0
  | fuel + 1, text, out =>
    match loadKey text with
    | .error .wild => .wild
    | .error .exit => .returned none 0
    | .ok (cert, []) => .returned (some (out ++ [cert])) (out.length + 1)
    | .ok (cert, c :: rest) => if c = 44 then loadLoop fuel rest (out ++ [cert]) else .returned none 0
def load_keys (text : Bytes) : Outcome := loadLoop (text.length + 1) text []

end Recovery.LoadKeys
