import Recovery.Applypatch
import Recovery.PatchStreams
import Recovery.StoredLibs

/-!
What a hash match says about the stored bytes.
-/
namespace Recovery.PatchHash
open Memory Program Program.Prog Bspatch Imgpatch
open PatchStreams Applypatch StoredLibs

variable {L : Libs} {σ A : Type}

/-- What the chunks of a patch of either format send; a bsdiff patch is one output
    that is never left out. -/
def formatOutputs (L : Libs) (format : PatchFormat) (data patch : Bytes) (bonus : Option Value) :
    Option (List ChunkOutput) :=
  match format with
  | .bsdiff => match applyBSDiffPatchMem L ⟨data, 0, data.length⟩ patch 0 with
    | .ok new => some [⟨.raw, some new⟩]
    | _ => none
  | .imgdiff => imageOutputs L data patch (bonus.map Value.data)

def formatCodes (L : Libs) (format : PatchFormat) (data patch : Bytes) (bonus : Option Value) (sink : Sink σ A)
    (s : σ) (as : List A) : List ChunkCode :=
  match format with
  | .bsdiff => [⟨.raw, 0⟩]
  | .imgdiff => match (applyImagePatchCodes L data patch sink [] (bonus.map Value.data) s as).value with
    | some (_, _, codes) => codes
    | none => []

/-! ## Chunks that are applied -/

/-- What a chunk sends to the sink, a call for each piece; none if its bsdiff patch cannot be applied. -/
def chunkSends (L : Libs) (patch : Bytes) : Chunk → Option (List Bytes)
  | .normal _ old patchOffset => match applyBSDiffPatchMem L old patch patchOffset with
    | .ok data => some [data]
    | _ => none
  | .raw _ data => some [data]
  | .deflate _ parts => some parts
/-- What the chunks from a record on send. -/
def sends (L : Libs) (old patch : Bytes) (bonus : Option Bytes) : Nat → Nat → Int → Option (List Bytes)
  | 0, _, _ => some []
  | left + 1, i, pos => match readChunk L old patch bonus i pos with
    | .ok chunk => do
      let first ← chunkSends L patch chunk
      let rest ← sends L old patch bonus left (i + 1) (chunkNext chunk)
      some (first ++ rest)
    | _ => none
/-- The sink after it has taken some pieces whole; none if it does not. -/
def feed (sink : Sink σ A) : List Bytes → σ → List A → Option (σ × List A)
  | [], s, as => some (s, as)
  | piece :: rest, s, as =>
    match (sink.call piece s as).value with
    | some n =>
      if n < piece.length then none else feed sink rest (sink.call piece s as).state (sink.call piece s as).rest
    | none => none
/-- The bsdiff patch of every normal chunk can be applied to its source, and the sink takes all that the chunks
    send. -/
def Taken (L : Libs) (old patch : Bytes) (bonus : Option Bytes) (sink : Sink σ A) (s : σ) (as : List A) : Bool :=
  ((sends L old patch bonus (Numbers.read4 (patch.drop 8)).toNat 0 12).bind fun pieces => feed sink pieces s as).isSome

variable {sink : Sink σ A}

private theorem feed_cons {piece : Bytes} {rest : List Bytes} {s : σ} {as : List A} {n : Int}
    (called : (sink.call piece s as).value = some n) (all : ¬ n < piece.length) :
    feed sink (piece :: rest) s as = feed sink rest (sink.call piece s as).state (sink.call piece s as).rest := by
  simp [feed,called,all]
private theorem feed_append (first rest : List Bytes) (s : σ) (as : List A) :
    feed sink (first ++ rest) s as = (feed sink first s as).bind fun after => feed sink rest after.1 after.2 := by
  induction first generalizing s as with
  | nil => rfl
  | cons piece first ih =>
    rw [List.cons_append,feed,feed]
    split
    · split
      · rfl
      · exact ih _ _
    · rfl

private theorem writePieces_feed {parts : List Bytes} {ctx ctx' : ShaCtx} {s : σ} {as : List A}
    (returned : (writePieces sink parts ctx s as).value = some (0, ctx')) :
    feed sink parts s as = some ((writePieces sink parts ctx s as).state, (writePieces sink parts ctx s as).rest) := by
  induction parts generalizing ctx s as with
  | nil => rfl
  | cons piece parts ih =>
    simp only [writePieces] at returned ⊢
    obtain ⟨n,called,rest⟩ := bind_returns returned
    rw [rest] at returned ⊢
    by_cases all : n ≠ piece.length
    · simp [all,pure_run] at returned
    · simp only [all,↓reduceIte] at returned ⊢
      rw [feed_cons called (by omega)]
      exact ih returned

private theorem applyBSDiffPatch_feed {old : Old} {patch : Bytes} {off : Int} {ctx ctx' : ShaCtx} {s : σ} {as : List A} {code : Int}
    (returned : (applyBSDiffPatch L old patch off sink ctx s as).value = some (code, ctx')) :
    ((chunkSends L patch (.normal 0 old off)).bind fun pieces => feed sink pieces s as) =
      if code = 0 then some ((applyBSDiffPatch L old patch off sink ctx s as).state,
        (applyBSDiffPatch L old patch off sink ctx s as).rest) else none := by
  unfold applyBSDiffPatch chunkSends at *
  cases mem : applyBSDiffPatchMem L old patch off with
  | stuck => simp [mem,stuck_run] at returned
  | err e =>
    simp only [mem,pure_run,Option.some.injEq,Prod.mk.injEq] at returned
    simp [mem,← returned.1]
  | ok data =>
    simp only [mem] at returned ⊢
    obtain ⟨n,called,rest⟩ := bind_returns returned
    rw [rest] at returned ⊢
    by_cases less : n < data.length
    all_goals
      simp only [less,↓reduceIte,pure_run,Option.some.injEq,Prod.mk.injEq] at returned ⊢
      simp [feed,called,less,← returned.1]

/-- A chunk ends with 0 exactly if it is applied and taken whole. -/
theorem applyChunk_feed {patch : Bytes} {chunk : Chunk} {ctx ctx' : ShaCtx} {pos : Int} {code : ChunkCode} {s : σ}
    {as : List A} (returned : (applyChunk L patch sink ctx (.ok chunk) s as).value = some (.next pos ctx' code)) :
    ((chunkSends L patch chunk).bind fun pieces => feed sink pieces s as) =
      if code.code = 0 then some ((applyChunk L patch sink ctx (.ok chunk) s as).state,
        (applyChunk L patch sink ctx (.ok chunk) s as).rest) else none := by
  cases chunk with
  | normal next old off =>
    simp only [applyChunk] at returned ⊢
    obtain ⟨⟨bsCode,bsCtx⟩,patched,rest⟩ := bind_returns returned
    rw [rest] at returned ⊢
    simp only [pure_run,Option.some.injEq,ChunkDone.next.injEq] at returned ⊢
    obtain ⟨_,_,rfl⟩ := returned
    exact applyBSDiffPatch_feed patched
  | raw next data =>
    simp only [applyChunk] at returned ⊢
    obtain ⟨n,called,rest⟩ := bind_returns returned
    rw [rest] at returned ⊢
    by_cases all : n ≠ data.length
    · simp [all,pure_run] at returned
    · simp only [all,↓reduceIte,pure_run,Option.some.injEq,ChunkDone.next.injEq] at returned ⊢
      simp [chunkSends,← returned.2.2,feed,called,not_not.mp all]
  | deflate next parts =>
    simp only [applyChunk] at returned ⊢
    obtain ⟨⟨written,wctx⟩,done,rest⟩ := bind_returns returned
    rw [rest] at returned ⊢
    by_cases bad : written ≠ 0
    · simp [bad,pure_run] at returned
    · obtain rfl : written = 0 := by simpa using bad
      simp only [bad,↓reduceIte,pure_run,Option.some.injEq,ChunkDone.next.injEq] at returned ⊢
      simp [chunkSends,← returned.2.2,writePieces_feed done]

private theorem chunkLoop_feed {old patch : Bytes} {bonus : Option Bytes} {left i : Nat} {pos : Int} {ctx ctx' : ShaCtx}
    {codes codes' : List ChunkCode} {s : σ} {as : List A}
    (returned : (chunkLoop L old patch bonus sink left i pos ctx codes s as).value = some (0, ctx', codes')) :
    ∃ new, codes' = codes ++ new ∧ ((∀ c ∈ new, c.code = 0) ↔
      ((sends L old patch bonus left i pos).bind fun pieces => feed sink pieces s as).isSome) := by
  induction left generalizing i pos ctx codes s as with
  | zero =>
    simp only [chunkLoop,pure_run,Option.some.injEq,Prod.mk.injEq,true_and] at returned
    exact ⟨[],by simp [returned],by simp [sends,feed]⟩
  | succ left ih =>
    simp only [chunkLoop] at returned
    obtain ⟨done,applied,rest⟩ := bind_returns returned
    rw [rest] at returned
    cases done with
    | fail _ => simp [pure_run] at returned
    | next next mid code =>
      obtain ⟨chunk,_,_,_,readOk,_,rfl,_⟩ := applyChunk_next rfl applied
      obtain ⟨new,rfl,same⟩ := ih returned
      refine ⟨code :: new,by simp,?_⟩
      rw [readOk] at applied same
      have first := applyChunk_feed applied
      rw [List.forall_mem_cons,same,sends,readOk]
      simp only [Option.bind_eq_bind]
      cases sent : chunkSends L patch chunk with
      | none =>
        rw [sent] at first
        by_cases good : code.code = 0
        · simp [good] at first
        · simp [good]
      | some pieces =>
        rw [sent,Option.bind_some] at first
        cases sends L old patch bonus left (i + 1) (chunkNext chunk) with
        | none => simp
        | some later =>
          simp only [Option.bind_some,feed_append,first]
          split
          · simp [*]
          · simp [*]

theorem applyImagePatchCodes_taken {old patch : Bytes} {bonus : Option Bytes} {ctx ctx' : ShaCtx} {codes : List ChunkCode}
    {s : σ} {as : List A} (returned : (applyImagePatchCodes L old patch sink ctx bonus s as).value = some (0, ctx', codes)) :
    (∀ c ∈ codes, c.code = 0) ↔ Taken L old patch bonus sink s as := by
  unfold applyImagePatchCodes at returned
  by_cases short : patch.length < 12
  · simp [short,pure_run] at returned
  by_cases magic : patch.take 8 ≠ imgdiffMagic
  · simp [short,magic,pure_run] at returned
  simp only [short,magic,↓reduceIte] at returned
  obtain ⟨new,rfl,same⟩ := chunkLoop_feed returned
  exact same

/-! ## The streams -/

theorem applyFormat_feeds {format : PatchFormat} {data patch : Bytes} {bonus : Option Value} {sink : Sink σ A}
    {ctx : ShaCtx} {s : σ} {as : List A}
    (returned : (applyFormat L format data patch bonus sink s as).value = some (0, ctx)) :
    ∃ outputs new, formatOutputs L format data patch bonus = some outputs ∧
      Feeds (Cut sink) outputs (formatCodes L format data patch bonus sink s as) ctx new ∧
      sink.stored (applyFormat L format data patch bonus sink s as).state = sink.stored s ++ new := by
  cases format with
  | bsdiff =>
    obtain ⟨-,new,mem,hash,store⟩ | ⟨bad,-⟩ | ⟨bad,-⟩ := applyBSDiffPatch_returns rfl returned
    · refine ⟨[⟨.raw,some new⟩],new,by simp [formatOutputs,mem],?_,store⟩
      have one : Feeds (Cut sink) [⟨.raw,some new⟩] [⟨.raw,0⟩] (new ++ []) (new ++ []) := Feeds.whole Feeds.nil
      simpa [formatCodes,hash] using one
    · exact absurd rfl bad
    · exact absurd rfl bad
  | imgdiff =>
    simp only [applyFormat,applyImagePatch] at returned ⊢
    obtain ⟨⟨code,ctx',codes⟩,applied,rest⟩ := bind_returns returned
    rw [rest] at returned ⊢
    obtain ⟨rfl,rfl⟩ := returned
    obtain ⟨outputs,hashed,new,outs,feeds,hash,store⟩ := applyImagePatchCodes_feeds rfl applied
    refine ⟨outputs,new,outs,?_,store⟩
    simpa [formatCodes,applied,hash] using feeds

/-- The two streams of a patch that returned 0. A bsdiff patch feeds them alike; in an image patch every
    chunk was applied, and both got the same bytes, exactly when the patch of each normal chunk can be applied
    to its source and the sink takes all that is sent. -/
theorem patch_streams_agree (L : Libs) {σ A : Type} (sink : Sink σ A) (s : σ) (as : List A) :
    (∀ old patch off ctx ctx', (applyBSDiffPatch L old patch off sink ctx s as).value = some (0, ctx') →
      ∃ data, applyBSDiffPatchMem L old patch off = .ok data ∧ ctx' = ctx ++ data ∧
        sink.stored (applyBSDiffPatch L old patch off sink ctx s as).state = sink.stored s ++ data) ∧
    (∀ old patch bonus ctx ctx' codes,
      (applyImagePatchCodes L old patch sink ctx bonus s as).value = some (0, ctx', codes) →
      (((∀ c ∈ codes, c.code = 0) ∧ ∃ data, ctx' = ctx ++ data ∧
        sink.stored (applyImagePatchCodes L old patch sink ctx bonus s as).state = sink.stored s ++ data) ↔
      Taken L old patch bonus sink s as)) ∧
    (∀ format data patch bonus ctx, sink.stored s = [] →
      (applyFormat L format data patch bonus sink s as).value = some (0, ctx) →
      (format = .imgdiff → Taken L data patch (bonus.map Value.data) sink s as) →
      L.sha1 (sink.stored (applyFormat L format data patch bonus sink s as).state) = L.sha1 ctx) := by
  refine ⟨?_, ?_, ?_⟩
  · intro old patch off ctx ctx' returned
    obtain ⟨-, data, whole⟩ | ⟨bad, -⟩ | ⟨bad, -⟩ := applyBSDiffPatch_returns rfl returned
    · exact ⟨data, whole⟩
    · exact absurd rfl bad
    · exact absurd rfl bad
  · intro old patch bonus ctx ctx' codes returned
    obtain ⟨outputs, hashed, new, -, feeds, hash, store⟩ := applyImagePatchCodes_feeds rfl returned
    rw [← applyImagePatchCodes_taken returned]
    exact ⟨And.left, fun good => ⟨good, hashed, hash, by rw [store, feeds_agree feeds good]⟩⟩
  · intro format data patch bonus ctx empty returned taken
    obtain ⟨outputs, new, -, feeds, store⟩ := applyFormat_feeds returned
    have good : ∀ c ∈ formatCodes L format data patch bonus sink s as, c.code = 0 := by
      cases format with
      | bsdiff => simp [formatCodes]
      | imgdiff =>
        simp only [applyFormat, applyImagePatch] at returned
        obtain ⟨⟨code, ctx', codes⟩, applied, rest⟩ := bind_returns returned
        rw [rest] at returned
        obtain ⟨rfl, rfl⟩ := returned
        simpa only [formatCodes, applied] using (applyImagePatchCodes_taken applied).mpr (taken rfl)
    rw [store, empty, feeds_agree feeds good, List.nil_append]

/-! ## Concrete runs -/

/-- A bsdiff patch that makes these bytes from nothing. -/
def freshPatch (new : Bytes) : Bytes :=
  let ctrl := bzEncode (triple 0 new.length 0)
  bsdiffMagic ++ Numbers.offtout ctrl.length ++ Numbers.offtout (bzEncode []).length ++ Numbers.offtout new.length ++
    ctrl ++ bzEncode [] ++ bzEncode new

/-- An image patch of a raw chunk and a normal chunk with the patch above. -/
def tornPatch (raw new : Bytes) : Bytes :=
  let header := imgdiffMagic ++ Numbers.write4 2 ++ Numbers.write4 chunkRaw ++ Numbers.write4 raw.length ++ raw ++
    Numbers.write4 chunkNormal ++ Numbers.write8 0 ++ Numbers.write8 0
  header ++ Numbers.write8 (header.length + 8) ++ freshPatch new

def tornOut : Path := "/t.patch".toList
def openOutput : Storage := ⟨fun p => if p = tornOut then some Storage.created else none, fun _ => none,
  fun _ => true, fun _ => true⟩

def wholeRun : Outcome Storage Answer (Int × ShaCtx) :=
  applyFormat storedLibs .imgdiff [] (tornPatch (ascii "T") (ascii "xy")) none (fileSink tornOut) openOutput
    [{ count := 1 }, { count := 2 }]
/-- A run in which the write of the normal chunk stops half way. -/
def tornRun : Outcome Storage Answer (Int × ShaCtx × List ChunkCode) :=
  applyImagePatchCodes storedLibs [] (tornPatch (ascii "T") (ascii "xy")) (fileSink tornOut) [] none openOutput
    [{ count := 1 }, { count := 1 }, { ok := false }]

theorem patch_streams_agree_at_wholeRun :
    wholeRun.value = some (0, ascii "Txy") ∧
      storedLibs.sha1 ((fileSink tornOut).stored wholeRun.state) = storedLibs.sha1 (ascii "Txy") := by
  have returned : wholeRun.value = some (0, ascii "Txy") := by decide +kernel
  refine ⟨returned, ?_⟩
  exact (patch_streams_agree storedLibs (fileSink tornOut) openOutput [{ count := 1 }, { count := 2 }]).2.2 .imgdiff []
    (tornPatch (ascii "T") (ascii "xy")) none (ascii "Txy") (by decide +kernel) returned fun _ => by decide +kernel

/-- The torn chunk is not noticed: the patch returns 0, the context has the raw chunk
    alone, and half of the normal chunk is stored. -/
theorem torn_chunk_unnoticed :
    tornRun.value = some (0, ascii "T", [⟨.raw, 0⟩, ⟨.normal, 1⟩]) ∧ stored tornOut tornRun.state = ascii "Tx" := by
  decide +kernel

end Recovery.PatchHash
