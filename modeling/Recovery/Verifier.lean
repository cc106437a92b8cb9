import Recovery.Program
import Recovery.Numbers
import Recovery.Asn1

/-!
`verify_file`: the whole-file signature in the comment of a package. Every call on
the file and every allocation may fail, which the answers decide.
-/
namespace Recovery.Verifier
open Memory Numbers Program Program.Prog Asn1

/-! ## The file -/

structure OpenFile where
  data : Bytes
  pos : Nat
  deriving DecidableEq, Repr

abbrev Reader := Prog OpenFile Bool

/-- `fseek(f, -back, SEEK_END)`, and whether it succeeds. -/
def seekBack (back : Nat) : Reader Bool := do
  let ok ← ask
  let f ← get
  if ok ∧ back ≤ f.data.length then do
    modify fun f => { f with pos := f.data.length - back }
    pure true
  else pure false
/-- `fseek(f, 0, SEEK_SET)`; nobody looks at its result. -/
def rewind : Reader Unit := do
  let ok ← ask
  modify fun f => if ok then { f with pos := 0 } else f
/-- `fread`: the bytes that were read, fewer at the end of the file or after an error. -/
def fread (n : Nat) : Reader Bytes := do
  let ok ← ask
  let f ← get
  let bytes := if ok then (f.data.drop f.pos).take n else []
  modify fun f => { f with pos := f.pos + bytes.length }
  pure bytes

/-! ## Keys -/

/-- The parts of libmincrypt that are used, with its numbers modulo the curve's order. -/
structure Mincrypt (Rsa P256 : Type) where
  sha1 : Bytes → Bytes
  sha256 : Bytes → Bytes
  rsaVerify : Rsa → Bytes → Bytes → Bool
  dsaSigUnpack : Bytes → Option (P256 × P256)
  p256FromBin : Bytes → P256
  p256EcdsaVerify : P256 → P256 → P256 → P256 → P256 → Bool

/-- The key of a `Certificate`, by its `key_type`. -/
inductive Key (Rsa P256 : Type) where
  | rsa (key : Rsa)
  | ec (x y : P256)

structure Certificate (Rsa P256 : Type) where
  hashLen : Int
  key : Key Rsa P256

def shaDigestSize : Int := 20
def sha256DigestSize : Int := 32
def rsaNumBytes : Nat := 256
def verifySuccess : Int := 0
def verifyFailure : Int := 1
def footerSize : Nat := 6
def eocdHeaderSize : Nat := 22
def bufferSize : Nat := 4096

section
variable {Rsa P256 : Type} (C : Mincrypt Rsa P256)

/-- The hash that is checked with a key: of the bytes fed to the SHA-1 or to the SHA-256
    context, none for any other length. -/
def hashFor (hashLen : Int) (sha1Ctx sha256Ctx : Bytes) : Option Bytes :=
  if hashLen = shaDigestSize then some (C.sha1 sha1Ctx)
  else if hashLen = sha256DigestSize then some (C.sha256 sha256Ctx)
  else none

def keyVerifies (cert : Certificate Rsa P256) (sigDer hash : Bytes) : Bool :=
  match cert.key with
  | .rsa key => if sigDer.length < rsaNumBytes then false else C.rsaVerify key (sigDer.take rsaNumBytes) hash
  | .ec x y =>
    if cert.hashLen = sha256DigestSize then
      match C.dsaSigUnpack sigDer with
      | none => false
      | some (r, s) => C.p256EcdsaVerify x y (C.p256FromBin hash) r s
    else false

/-! ## The verification -/

/-- Whether the marker of an end-of-central-directory record is at an index. -/
def markerAt (eocd : Bytes) (i : Nat) : Bool :=
  byteAt eocd i = 0x50 ∧ byteAt eocd (i + 1) = 0x4b ∧ byteAt eocd (i + 2) = 0x05 ∧ byteAt eocd (i + 3) = 0x06

/-- The loop that hashes the signed bytes, with the contexts so far; none when a read
    fails. -/
def hashLoop (needSha1 needSha256 : Bool) (signedLen : Nat) :
    Nat × Bytes × Bytes → Reader (Option (Bytes × Bytes)) :=
  iterate fun (soFar, sha1Ctx, sha256Ctx) =>
    if soFar < signedLen then do
      let size := min bufferSize (signedLen - soFar)
      let buffer ← fread size
      if buffer.length ≠ size then pure (.inr none)
      else pure (.inl (soFar + size, if needSha1 then sha1Ctx ++ buffer else sha1Ctx,
        if needSha256 then sha256Ctx ++ buffer else sha256Ctx))
    else pure (.inr (some (sha1Ctx, sha256Ctx)))

/-- Memory with the end-of-central-directory buffer at address 0. -/
def memoryAround (eocd : Bytes) (outside : Mem) : Mem := fun a =>
  if 0 ≤ a ∧ a < eocd.length then eocd.getD a.toNat 0 else outside a

/-- The second half of `verify_file`: the signed bytes are hashed and each key is tried. A
    signature that starts before the comment is looked for outside the buffer. -/
def verifySignature (room : Nat → Bool) (outside : Mem) (keys : List (Certificate Rsa P256))
    (signatureStart signedLen : Nat) (eocd : Bytes) : Reader Int := do
  let needSha1 := keys.any (·.hashLen = shaDigestSize)
  let needSha256 := keys.any (·.hashLen = sha256DigestSize)
  if ¬ (← ask) then pure verifyFailure
  else do
    rewind
    match ← hashLoop needSha1 needSha256 signedLen (0, [], []) with
    | none => pure verifyFailure
    | some (sha1Ctx, sha256Ctx) =>
      let signatureSize := signatureStart - footerSize
      match readPkcs7 (memoryAround eocd outside) room ((eocd.length : Int) - signatureStart) signatureSize with
      | none => pure verifyFailure
      | some sigDer =>
        if keys.any fun cert => (hashFor C cert.hashLen sha1Ctx sha256Ctx).any (keyVerifies C cert sigDer)
        then pure verifySuccess
        else pure verifyFailure

def verifyFile (room : Nat → Bool) (outside : Mem) (keys : List (Certificate Rsa P256)) : Reader Int := do
  if ¬ (← ask) then pure verifyFailure
  else if ¬ (← seekBack footerSize) then pure verifyFailure
  else do
    let footer ← fread footerSize
    if footer.length ≠ footerSize then pure verifyFailure
    else if byteAt footer 2 ≠ 0xff ∨ byteAt footer 3 ≠ 0xff then pure verifyFailure
    else do
      let commentSize := byteAt footer 4 + (byteAt footer 5 <<< 8)
      let signatureStart := byteAt footer 0 + (byteAt footer 1 <<< 8)
      if signatureStart ≤ footerSize then pure verifyFailure
      else do
        let eocdSize := commentSize + eocdHeaderSize
        if ¬ (← seekBack eocdSize) then pure verifyFailure
        else do
          let f ← get
          let signedLen := f.pos + eocdHeaderSize - 2
          if ¬ (← ask) then pure verifyFailure
          else do
            let eocd ← fread eocdSize
            if eocd.length ≠ eocdSize then pure verifyFailure
            else if ¬ markerAt eocd 0 then pure verifyFailure
            else if (List.range' 4 (eocdSize - 3 - 4)).any (markerAt eocd) then pure verifyFailure
            else verifySignature C room outside keys signatureStart signedLen eocd

end

/-! ## The call of `read_pkcs7` -/

/-- The indices that the test for a marker reads: it goes on while the bytes match. -/
def markerReads (eocd : Bytes) (i : Nat) : List Int :=
  (i : Int) :: (if byteAt eocd i = 0x50 then
    ((i + 1 : Nat) : Int) :: (if byteAt eocd (i + 1) = 0x4b then
      ((i + 2 : Nat) : Int) :: (if byteAt eocd (i + 2) = 0x05 then [((i + 3 : Nat) : Int)] else [])
    else [])
  else [])
/-- The indices that the scan for a second marker reads. -/
def scanReads (eocd : Bytes) : List Nat → List Int
  | [] => []
  | i :: rest => markerReads eocd i ++ (if markerAt eocd i then [] else scanReads eocd rest)

/-- What `verify_file` has when it calls `read_pkcs7`: the buffer, the block in it, and the
    bytes hashed. -/
structure Handed where
  eocd : Bytes
  pkcs7Der : Int
  pkcs7DerLen : Nat
  sha1Ctx : Bytes
  sha256Ctx : Bytes

section
variable {Rsa P256 : Type}

/-- `verify_file` up to the call of `read_pkcs7`, with the indices of the buffer that it
    read; nothing is handed over when it gives up. -/
def handOver (keys : List (Certificate Rsa P256)) : Reader (Option Handed × List Int) := do
  if ¬ (← ask) then pure (none, [])
  else if ¬ (← seekBack footerSize) then pure (none, [])
  else do
    let footer ← fread footerSize
    if footer.length ≠ footerSize then pure (none, [])
    else if byteAt footer 2 ≠ 0xff ∨ byteAt footer 3 ≠ 0xff then pure (none, [])
    else do
      let commentSize := byteAt footer 4 + (byteAt footer 5 <<< 8)
      let signatureStart := byteAt footer 0 + (byteAt footer 1 <<< 8)
      if signatureStart ≤ footerSize then pure (none, [])
      else do
        let eocdSize := commentSize + eocdHeaderSize
        if ¬ (← seekBack eocdSize) then pure (none, [])
        else do
          let f ← get
          let signedLen := f.pos + eocdHeaderSize - 2
          if ¬ (← ask) then pure (none, [])
          else do
            let eocd ← fread eocdSize
            if eocd.length ≠ eocdSize then pure (none, [])
            else if ¬ markerAt eocd 0 then pure (none, markerReads eocd 0)
            else do
              let scanned := List.range' 4 (eocdSize - 3 - 4)
              let reads := markerReads eocd 0 ++ scanReads eocd scanned
              if scanned.any (markerAt eocd) then pure (none, reads)
              else if ¬ (← ask) then pure (none, reads)
              else do
                rewind
                let needSha1 := keys.any (·.hashLen = shaDigestSize)
                let needSha256 := keys.any (·.hashLen = sha256DigestSize)
                let hashed ← hashLoop needSha1 needSha256 signedLen (0, [], [])
                pure (hashed.map fun ctx =>
                  ⟨eocd, (eocd.length : Int) - signatureStart, signatureStart - footerSize, ctx.1, ctx.2⟩, reads)

/-- What `verify_file` does with what was handed over. -/
def finish (C : Mincrypt Rsa P256) (room : Nat → Bool) (outside : Mem) (keys : List (Certificate Rsa P256)) :
    Option Handed → Int
  | none => verifyFailure
  | some handed =>
    match readPkcs7 (memoryAround handed.eocd outside) room handed.pkcs7Der handed.pkcs7DerLen with
    | none => verifyFailure
    | some sigDer =>
      if keys.any fun cert => (hashFor C cert.hashLen handed.sha1Ctx handed.sha256Ctx).any (keyVerifies C cert sigDer)
      then verifySuccess
      else verifyFailure

private theorem finish_map (C : Mincrypt Rsa P256) (room : Nat → Bool) (outside : Mem) (keys : List (Certificate Rsa P256))
    (eocd : Bytes) (p : Int) (n : Nat) (hashed : Option (Bytes × Bytes)) :
    (pure (finish C room outside keys (hashed.map fun ctx => ⟨eocd,p,n,ctx.1,ctx.2⟩)) : Reader Int) =
      match hashed with
      | none => pure verifyFailure
      | some (sha1Ctx, sha256Ctx) =>
        match readPkcs7 (memoryAround eocd outside) room p n with
        | none => pure verifyFailure
        | some sigDer =>
          if keys.any fun cert => (hashFor C cert.hashLen sha1Ctx sha256Ctx).any (keyVerifies C cert sigDer)
          then pure verifySuccess
          else pure verifyFailure := by
  cases hashed with
  | none => rfl
  | some ctx =>
    simp only [Option.map_some,finish]
    cases readPkcs7 (memoryAround eocd outside) room p n with
    | none => rfl
    | some sigDer => exact apply_ite _ _ _ _

theorem verifyFile_handOver (C : Mincrypt Rsa P256) (room : Nat → Bool) (outside : Mem)
    (keys : List (Certificate Rsa P256)) :
    verifyFile C room outside keys = handOver keys >>= fun handed => pure (finish C room outside keys handed.1) := by
  simp only [verifyFile,verifySignature,handOver,bind_assoc,ite_bind,pure_bind,finish_map]
  rfl

/-- The indices of the buffer that `verify_file` and `read_pkcs7` read. -/
def eocdReads (room : Nat → Bool) (outside : Mem) (keys : List (Certificate Rsa P256)) : Reader (List Int) := do
  let (handed, reads) ← handOver keys
  match handed with
  | none => pure reads
  | some h => pure (reads ++ pkcs7Reads (memoryAround h.eocd outside) room h.pkcs7Der h.pkcs7DerLen)

end

end Recovery.Verifier
