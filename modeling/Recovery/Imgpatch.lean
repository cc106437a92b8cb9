import Recovery.Bspatch

/-!
`imgpatch.c`: an image patch is a list of chunk records.
-/
namespace Recovery.Imgpatch
open Memory Numbers Program Bspatch

variable (L : Libs) {σ A : Type}

/-- A sink: a call takes bytes and says how many it accepted (less than asked,
    or a negative number, when it fails); `stored` is what it has accepted. -/
structure Sink (σ A : Type) where
  call : Bytes → Prog σ A Int
  stored : σ → Bytes
  stores : ∀ data s as n, (call data s as).value = some n →
    stored (call data s as).state = stored s ++ data.take n.toNat

abbrev ShaCtx := Bytes

/-- `ApplyBSDiffPatch`: the whole output goes to the sink in one call, and to
    the context after the sink took all of it. -/
def applyBSDiffPatch (old : Old) (patch : Bytes) (patchOffset : Int) (sink : Sink σ A) (ctx : ShaCtx) :
    Prog σ A (Int × ShaCtx) :=
  match applyBSDiffPatchMem L old patch patchOffset with
  | .stuck => Prog.stuck
  | .err _ => pure (-1, ctx)
  | .ok newData => do
    let n ← sink.call newData
    if n < newData.length then pure (1, ctx) else pure (0, ctx ++ newData)

inductive ChunkType where
  | normal
  | deflate
  | raw
  deriving DecidableEq, Repr

def chunkNormal : Int := 0
def chunkDeflate : Int := 2
def chunkRaw : Int := 3

structure ChunkCode where
  type : ChunkType
  code : Int
  deriving DecidableEq, Repr

/-- A chunk record, read from the patch: where the next one starts, and what the
    chunk sends to the sink. -/
inductive Chunk where
  | normal (next : Int) (old : Old) (patchOffset : Int)
  | raw (next : Int) (data : Bytes)
  | deflate (next : Int) (parts : List Bytes)

/-- The outputs of successive `deflate` calls with a buffer of `size` bytes: full
    ones, then one that is not. -/
def pieces (size : Nat) : Nat → Bytes → List Bytes
  | 0, out => [out]
  | fuel + 1, out => if out.length < size then [out] else out.take size :: pieces size fuel (out.drop size)

/-- The output loop of a deflate chunk: each piece goes to the sink, then to the
    context. -/
def writePieces (sink : Sink σ A) : List Bytes → ShaCtx → Prog σ A (Int × ShaCtx)
  | [], ctx => pure (0, ctx)
  | piece :: rest, ctx => do
    let n ← sink.call piece
    if n ≠ piece.length then pure (-1, ctx) else writePieces sink rest (ctx ++ piece)

/-- What one call of `inflate` with room for `expandedLen` bytes does to the
    source of a deflate chunk: the buffer, when the stream ended in it and left
    exactly the bonus bytes over. -/
def expandSource (old : Bytes) (srcStart srcLen expandedLen : Int) (bonus : Bytes) : Ret Bytes :=
  let availIn := unsigned 32 srcLen
  let availOut := unsigned 32 expandedLen
  let inflated := L.inflate (window old srcStart availIn)
  if inflated.out.length ≤ availOut then
    match inflated.fin with
    | .ended =>
      if (availOut - inflated.out.length : Nat) ≠ bonus.length then .err (-1)
      else do
        let buf ← Ret.need (setSlice (L.fresh expandedLen.toNat) 0 inflated.out)
        Ret.need (setSlice buf (expandedLen - bonus.length) bonus)
    | .corrupt => .err (-1)
    | .starved => if 0 ≤ srcStart ∧ srcStart + availIn ≤ old.length then .err (-1) else .stuck
  else .err (-1)

/-- The patched and recompressed data of a deflate chunk, as the pieces in which
    it is written. -/
def deflateOutput (old patch : Bytes) (header bonus : Bytes) : Ret (List Bytes) := do
  let srcStart := read8 header
  let srcLen := read8 (header.drop 8)
  let patchOffset := read8 (header.drop 16)
  let expandedLen := (unsigned 64 (read8 (header.drop 24)) : Int)
  let params : DeflateParams :=
    { level := read4 (header.drop 40), method := read4 (header.drop 44), windowBits := read4 (header.drop 48),
      memLevel := read4 (header.drop 52), strategy := read4 (header.drop 56) }
  if ¬ L.room expandedLen.toNat then .err (-1)
  else do
    let expanded ← expandSource L old srcStart srcLen expandedLen bonus
    let target ← match applyBSDiffPatchMem L ⟨expanded, 0, expanded.length⟩ patch patchOffset with
      | .err _ => Ret.err (-1)
      | r => r
    let tempSize := if expandedLen < 32768 then 32768 else expandedLen.toNat
    -- a rejected encoder, or a buffer length that does not fit avail_out, never reaches the end of the stream
    match L.deflate params target with
    | none => .stuck
    | some out => if tempSize < 2 ^ 32 then .ok (pieces tempSize out.length out) else .stuck

/-- Reads the record at a position, up to where its output goes to the sink; an
    error is the `return -1` of `ApplyImagePatch`. -/
def readChunk (old patch : Bytes) (bonus : Option Bytes) (i : Nat) (pos : Int) : Ret Chunk :=
  if pos + 4 > patch.length then .err (-1)
  else do
    let type := read4 (← Ret.need (slice patch pos 4))
    let pos := pos + 4
    if type = chunkNormal then
      if pos + 24 > patch.length then .err (-1)
      else do
        let header ← Ret.need (slice patch pos 24)
        .ok (.normal (pos + 24) ⟨old, read8 header, read8 (header.drop 8)⟩ (read8 (header.drop 16)))
    else if type = chunkRaw then
      if pos + 4 > patch.length then .err (-1)
      else do
        let dataLen := read4 (← Ret.need (slice patch pos 4))
        let pos := pos + 4
        if pos + dataLen > patch.length then .err (-1)
        else if dataLen < 0 then .stuck
        else do
          let data ← Ret.need (slice patch pos dataLen.toNat)
          .ok (.raw (pos + dataLen) data)
    else if type = chunkDeflate then
      if pos + 60 > patch.length then .err (-1)
      else do
        let header ← Ret.need (slice patch pos 60)
        let parts ← deflateOutput L old patch header (if i = 1 then bonus.getD [] else [])
        .ok (.deflate (pos + 60) parts)
    else .err (-1)

/-- How the loop goes on after a chunk: with the next record, or with its
    `return -1`. -/
inductive ChunkDone where
  | next (pos : Int) (ctx : ShaCtx) (code : ChunkCode)
  | fail (ctx : ShaCtx)

/-- One round of the loop of `ApplyImagePatch`. The code of a normal chunk is
    only reported; a raw chunk is hashed before the sink takes it. -/
def applyChunk (patch : Bytes) (sink : Sink σ A) (ctx : ShaCtx) : Ret Chunk → Prog σ A ChunkDone
  | .stuck => Prog.stuck
  | .err _ => pure (.fail ctx)
  | .ok (.normal next old patchOffset) => do
    let (code, ctx) ← applyBSDiffPatch L old patch patchOffset sink ctx
    pure (.next next ctx ⟨.normal, code⟩)
  | .ok (.raw next data) => do
    let n ← sink.call data
    if n ≠ data.length then pure (.fail (ctx ++ data)) else pure (.next next (ctx ++ data) ⟨.raw, 0⟩)
  | .ok (.deflate next parts) => do
    let (code, ctx) ← writePieces sink parts ctx
    if code ≠ 0 then pure (.fail ctx) else pure (.next next ctx ⟨.deflate, 0⟩)

/-- The loop of `ApplyImagePatch`, with the codes the chunks ended with. -/
def chunkLoop (old patch : Bytes) (bonus : Option Bytes) (sink : Sink σ A) :
    Nat → Nat → Int → ShaCtx → List ChunkCode → Prog σ A (Int × ShaCtx × List ChunkCode)
  | 0, _, _, ctx, codes => pure (0, ctx, codes)
  | left + 1, i, pos, ctx, codes => do
    match ← applyChunk L patch sink ctx (readChunk L old patch bonus i pos) with
    | .fail ctx => pure (-1, ctx, codes)
    | .next pos ctx code => chunkLoop old patch bonus sink left (i + 1) pos ctx (codes ++ [code])

def imgdiffMagic : Bytes := ascii "IMGDIFF2"

/-- `ApplyImagePatch`, with the codes its chunks ended with. -/
def applyImagePatchCodes (old patch : Bytes) (sink : Sink σ A) (ctx : ShaCtx) (bonus : Option Bytes) :
    Prog σ A (Int × ShaCtx × List ChunkCode) :=
  if patch.length < 12 then pure (-1, ctx, [])
  else if patch.take 8 ≠ imgdiffMagic then pure (-1, ctx, [])
  else
    let numChunks := read4 (patch.drop 8)
    chunkLoop L old patch bonus sink numChunks.toNat 0 12 ctx []

/-- `ApplyImagePatch`: what it returns, and the context it leaves. -/
def applyImagePatch (old patch : Bytes) (sink : Sink σ A) (ctx : ShaCtx) (bonus : Option Bytes) :
    Prog σ A (Int × ShaCtx) := do
  let (code, ctx, _) ← applyImagePatchCodes L old patch sink ctx bonus
  pure (code, ctx)

end Recovery.Imgpatch
