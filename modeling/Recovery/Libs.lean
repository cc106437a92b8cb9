import Recovery.Memory

/-!
The libraries that the code calls and the repository does not hold: SHA-1,
bzip2, zlib and the heap. Every function that needs one of them takes `Libs` as
a parameter; what is assumed of them is stated where a theorem needs it.
-/
namespace Recovery
open Memory

/-- How a compressed stream goes on once its decoded bytes are used up: it has
    ended, it is corrupt, or the input ran out before its end. -/
inductive StreamEnd where
  | ended
  | corrupt
  | starved
  deriving DecidableEq, Repr

/-- What a bzip2 stream still delivers. -/
structure Stream where
  out : Bytes
  fin : StreamEnd
  deriving DecidableEq, Repr

/-- What a raw deflate stream delivers, and how much of the input it used. -/
structure Inflated where
  out : Bytes
  fin : StreamEnd
  used : Nat
  deriving DecidableEq, Repr

/-- The encoder parameters handed to `deflateInit2`. -/
structure DeflateParams where
  level : Int
  method : Int
  windowBits : Int
  memLevel : Int
  strategy : Int
  deriving DecidableEq, Repr

structure Libs where
  /-- `SHA_hash` of the bytes fed to a context. -/
  sha1 : Bytes → Bytes
  /-- What one `BZ2_bzWriteOpen` .. `BZ2_bzWriteClose` writes. -/
  bzEncode : Bytes → Bytes
  /-- What `BZ2_bzDecompress` delivers from an input. -/
  bzDecode : Bytes → Stream
  /-- What `inflate` delivers from a raw deflate input. -/
  inflate : Bytes → Inflated
  /-- What `deflate` with `Z_FINISH` produces; none when `deflateInit2` rejects
      the parameters. -/
  deflate : DeflateParams → Bytes → Option Bytes
  /-- Whether `malloc` of a size succeeds. -/
  room : Nat → Bool
  /-- The bytes that fresh memory holds. -/
  junk : Nat → UInt8

def Libs.fresh (L : Libs) (n : Nat) : Bytes := (List.range n).map L.junk

@[simp] theorem Libs.fresh_length (L : Libs) (n : Nat) : (L.fresh n).length = n := by simp [Libs.fresh]

/-- bzip2 decompression inverts compression, and stops at the end of the stream
    whatever follows it. -/
def BzRoundTrips (L : Libs) : Prop := ∀ data rest, L.bzDecode (L.bzEncode data ++ rest) = ⟨data, .ended⟩

end Recovery
