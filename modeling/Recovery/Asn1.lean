import Recovery.Memory

/-!
The ASN.1 decoder of `asn1_decoder.cpp` and the search of `read_pkcs7` for the
signature in a PKCS#7 block. Memory has a byte at every address; which of them a
caller owns is not the decoder's business, so that it notes each address it reads.
-/
namespace Recovery.Asn1
open Memory

abbrev Mem := Int → UInt8

/-- `asn1_context_t`: the bytes that are left to decode. -/
structure Context where
  length : Nat
  p : Int
  appType : Nat
  deriving DecidableEq, Repr

def kMaskConstructed : Nat := 0xE0
def kMaskTag : Nat := 0x7F
def kMaskAppType : Nat := 0x1F
def kTagOctetString : Nat := 0x04
def kTagOid : Nat := 0x06
def kTagSequence : Nat := 0x30
def kTagSet : Nat := 0x31
def kTagConstructed : Nat := 0xA0

def Context.advance (ctx : Context) (n : Nat) : Context := { ctx with length := ctx.length - n, p := ctx.p + n }

def asn1ContextNew (buffer : Int) (length : Nat) : Context := ⟨length, buffer, 0⟩

/-- Decoding works on a context, and notes the addresses it reads, the last one first. -/
abbrev Decoder := StateT Context (StateM (List Int))

variable (mem : Mem)

/-! ## Bytes and lengths -/

def load (a : Int) : Decoder Nat := do
  modifyThe (List Int) (a :: ·)
  pure (mem a).toNat
def peekByte : Decoder (Option Nat) := do
  let ctx ← get
  if ctx.length = 0 then pure none else do pure (some (← load mem ctx.p))
def getByte : Decoder (Option Nat) := do
  let ctx ← get
  if ctx.length = 0 then pure none
  else do
    let byte ← load mem ctx.p
    set (ctx.advance 1)
    pure (some byte)
def skipBytes (numSkip : Nat) : Decoder Bool := do
  let ctx ← get
  if ctx.length < numSkip then pure false
  else do
    set (ctx.advance numSkip)
    pure true

/-- The loop of `decode_length` over the octets of a long length. -/
def lengthOctets : Nat → Nat → Decoder (Option Nat)
  | 0, length => pure (some length)
  | n + 1, length => do
    match ← getByte mem with
    | none => pure none
    | some byte => lengthOctets n ((length <<< 8) + byte)
/-- `decode_length`; a length has fewer octets than a `size_t`. -/
def decodeLength : Decoder (Option Nat) := do
  match ← getByte mem with
  | none => pure none
  | some numOctets =>
    if numOctets &&& 0x80 = 0 then pure (some numOctets)
    else if numOctets &&& kMaskTag ≥ 8 then pure none
    else lengthOctets mem (numOctets &&& kMaskTag) 0

/-! ## Elements -/

/-- The length of an element and its contents, which must be inside the context. -/
def contents (appType : Nat) : Decoder (Option Context) := do
  match ← decodeLength mem with
  | none => pure none
  | some length => do
    let ctx ← get
    if length > ctx.length then pure none else pure (some ⟨length, ctx.p, appType⟩)

def asn1ConstructedGet : Decoder (Option Context) := do
  match ← getByte mem with
  | none => pure none
  | some type =>
    if type &&& kMaskConstructed ≠ kTagConstructed then pure none else contents mem (type &&& kMaskAppType)
/-- The masked tag of a byte; -1 has all bits set. -/
def maskedTag : Option Nat → Nat
  | none => kMaskTag
  | some byte => byte &&& kMaskTag
def asn1SequenceGet : Decoder (Option Context) := do
  if maskedTag (← getByte mem) ≠ kTagSequence then pure none else contents mem 0
def asn1SetGet : Decoder (Option Context) := do
  if maskedTag (← getByte mem) ≠ kTagSet then pure none else contents mem 0
def asn1SequenceNext : Decoder Bool := do
  match ← getByte mem with
  | none => pure false
  | some _ => do
    match ← decodeLength mem with
    | none => pure false
    | some length => skipBytes length

/-- The loop of `asn1_constructed_skip_all`: every round skips at least a byte. -/
def skipAllLoop : Nat → Decoder Bool
  | 0 => pure false
  | fuel + 1 => do
    match ← peekByte mem with
    | none => pure false
    | some byte =>
      if byte &&& kMaskConstructed = kTagConstructed then do
        let _ ← skipBytes 1
        match ← decodeLength mem with
        | none => pure false
        | some length => if ← skipBytes length then skipAllLoop fuel else pure false
      else pure true
def asn1ConstructedSkipAll : Decoder Bool := do
  let ctx ← get
  skipAllLoop mem (ctx.length + 1)

/-- The value of a primitive element: where it is and its length, which is not 0. -/
def primitive (tag : Nat) : Decoder (Option (Int × Nat)) := do
  if (← getByte mem) ≠ some tag then pure none
  else match ← decodeLength mem with
    | none => pure none
    | some length => do
      let ctx ← get
      if length = 0 ∨ length > ctx.length then pure none else pure (some (ctx.p, length))
def asn1OidGet : Decoder (Option (Int × Nat)) := primitive mem kTagOid
def asn1OctetStringGet : Decoder (Option (Int × Nat)) := primitive mem kTagOctetString

/-! ## PKCS#7 -/

def copy (p : Int) (length : Nat) : Bytes := (List.range length).map fun i : Nat => mem (p + (i : Int))
def copied (p : Int) (length : Nat) : List Int := (List.range length).map fun i : Nat => p + (i : Int)

/-- Decoding that may give up; each context has its own position. -/
abbrev Search := OptionT (StateM (List Int))

def after (call : Decoder Bool) (ctx : Context) : Search Context := OptionT.mk do
  match ← call.run ctx with
  | (true, ctx) => pure (some ctx)
  | (false, _) => pure none
def within {α : Type} (call : Decoder (Option α)) (ctx : Context) : Search α := OptionT.mk do
  let (result, _) ← call.run ctx
  pure result

/-- The signature of the first SignerInfo in a ContentInfo, copied if there is room for it. -/
def signatureIn (room : Nat → Bool) (pkcs7Seq : Context) : Search Bytes := do
  let pkcs7Seq ← after (asn1SequenceNext mem) pkcs7Seq
  let signedDataApp ← within (asn1ConstructedGet mem) pkcs7Seq
  let signedDataSeq ← within (asn1SequenceGet mem) signedDataApp
  let signedDataSeq ← after (asn1SequenceNext mem) signedDataSeq
  let signedDataSeq ← after (asn1SequenceNext mem) signedDataSeq
  let signedDataSeq ← after (asn1SequenceNext mem) signedDataSeq
  let signedDataSeq ← after (asn1ConstructedSkipAll mem) signedDataSeq
  let sigSet ← within (asn1SetGet mem) signedDataSeq
  let sigSeq ← within (asn1SequenceGet mem) sigSet
  let sigSeq ← after (asn1SequenceNext mem) sigSeq
  let sigSeq ← after (asn1SequenceNext mem) sigSeq
  let sigSeq ← after (asn1SequenceNext mem) sigSeq
  let sigSeq ← after (asn1SequenceNext mem) sigSeq
  let (sigDerPtr, sigDerLength) ← within (asn1OctetStringGet mem) sigSeq
  if room sigDerLength then do
    modifyThe (List Int) (copied sigDerPtr sigDerLength ++ ·)
    pure (copy mem sigDerPtr sigDerLength)
  else failure

/-- `read_pkcs7`: the signature in a block. -/
def findSignature (room : Nat → Bool) (pkcs7Der : Int) (pkcs7DerLen : Nat) : Search Bytes := do
  let pkcs7Seq ← within (asn1SequenceGet mem) (asn1ContextNew pkcs7Der pkcs7DerLen)
  signatureIn mem room pkcs7Seq

def readPkcs7 (room : Nat → Bool) (pkcs7Der : Int) (pkcs7DerLen : Nat) : Option Bytes :=
  ((findSignature mem room pkcs7Der pkcs7DerLen).run.run []).1
def pkcs7Reads (room : Nat → Bool) (pkcs7Der : Int) (pkcs7DerLen : Nat) : List Int :=
  ((findSignature mem room pkcs7Der pkcs7DerLen).run.run []).2

end Recovery.Asn1
