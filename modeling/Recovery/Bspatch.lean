import Recovery.Libs
import Recovery.Numbers
import Recovery.Program

/-!
`bspatch.c`: a bsdiff patch is a header, a block of control triples, a block of differences and a
block of extra bytes, each block compressed with bzip2.
-/
namespace Recovery.Bspatch
open Memory Numbers Program

variable (L : Libs)

/-- `FillBuffer`: the next bytes of a stream. Input that runs out keeps the
    decompressor without progress for ever. -/
def fillBuffer (size : Nat) (stream : Stream) : Ret (Bytes × Stream) :=
  if size ≤ stream.out.length then
    .ok (stream.out.take size, { stream with out := stream.out.drop size })
  else match stream.fin with
    | .starved => .stuck
    | _ => .err (-1)

/-- Old data: a buffer and the part of it that was handed over. -/
structure Old where
  buffer : Bytes
  start : Int
  size : Int

def Old.at (old : Old) (pos : Int) : Option UInt8 :=
  if 0 ≤ pos ∧ pos < old.size then
    if 0 ≤ old.start + pos then old.buffer[(old.start + pos).toNat]? else none
  else some 0

def addOld (old : Old) (oldpos : Int) : Bytes → Option Bytes
  | [] => some []
  | d :: ds => do
    let o ← old.at oldpos
    let rest ← addOld old (oldpos + 1) ds
    some ((d + o) :: rest)

def orFail {α : Type} : Ret α → Ret α
  | .err _ => .err 1
  | r => r

/-- The loop of `ApplyBSDiffPatchMem`, one control triple a round. Lengths are
    cut to an int where `FillBuffer` takes one; an int index does not reach a
    length of 2^31. -/
def controlLoop (old : Old) (newSize : Int) :
    Nat → Stream → Stream → Stream → Int → Int → Bytes → Ret Bytes
  | 0, _, _, _, _, _, _ => .stuck
  | fuel + 1, cstream, dstream, estream, oldpos, newpos, buf =>
    if newpos < newSize then do
      let (c, cstream) ← orFail (fillBuffer 24 cstream)
      let ctrl0 := offtin (c.take 8)
      let ctrl1 := offtin ((c.drop 8).take 8)
      let ctrl2 := offtin ((c.drop 16).take 8)
      if ctrl0 < 0 ∨ ctrl1 < 0 then .err 1
      else if wrap 64 (newpos + ctrl0) > newSize then .err 1
      else do
        let (diff, dstream) ← orFail (fillBuffer (unsigned 32 ctrl0) dstream)
        if 2 ^ 31 ≤ ctrl0 then .stuck
        else do
          let sum ← Ret.need (addOld old oldpos diff)
          let buf ← Ret.need (setSlice buf newpos sum)
          let newpos := newpos + ctrl0
          let oldpos := wrap 64 (oldpos + ctrl0)
          if wrap 64 (newpos + ctrl1) > newSize then .err 1
          else do
            let (extra, estream) ← orFail (fillBuffer (unsigned 32 ctrl1) estream)
            let buf ← Ret.need (setSlice buf newpos extra)
            controlLoop old newSize fuel cstream dstream estream (wrap 64 (oldpos + ctrl2))
              (wrap 64 (newpos + ctrl1)) buf
    else .ok buf

def bsdiffMagic : Bytes := ascii "BSDIFF40"

/-- `ApplyBSDiffPatchMem`: the new data, from old data and the patch at an
    offset of a blob. -/
def applyBSDiffPatchMem (old : Old) (patch : Bytes) (patchOffset : Int) : Ret Bytes := do
  let magic ← Ret.need (slice patch patchOffset 8)
  if magic ≠ bsdiffMagic then .err 1
  else do
    let header ← Ret.need (slice patch (patchOffset + 8) 24)
    let ctrlLen := offtin (header.take 8)
    let dataLen := offtin ((header.drop 8).take 8)
    let newSize := offtin ((header.drop 16).take 8)
    if ctrlLen < 0 ∨ dataLen < 0 ∨ newSize < 0 then .err 1
    else
      let at0 := patchOffset + 32
      let cstream := L.bzDecode (window patch at0 (unsigned 32 ctrlLen))
      let dstream := L.bzDecode (window patch (at0 + ctrlLen) (unsigned 32 dataLen))
      let estream := L.bzDecode (window patch (at0 + ctrlLen + dataLen)
        (unsigned 32 (patch.length - (at0 + ctrlLen + dataLen))))
      if L.room newSize.toNat then
        controlLoop old newSize (cstream.out.length + 1) cstream dstream estream 0 0 (L.fresh newSize.toNat)
      else .err 1

end Recovery.Bspatch
