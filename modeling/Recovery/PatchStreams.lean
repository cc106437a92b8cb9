import Recovery.Imgpatch

/-!
The two streams of an image patch: what the sink has stored and what the SHA-1
context was fed. `Feeds` says how they can come apart: a normal chunk that fails
is left out of the hash, and whatever the sink took of it stays stored.
-/
namespace Recovery.PatchStreams
open Memory Program Program.Prog Bspatch Imgpatch Option

variable {L : Libs} {σ A : Type}

/-- What a chunk sends when nothing goes wrong; none for a normal chunk whose
    bsdiff patch fails. -/
structure ChunkOutput where
  type : ChunkType
  data : Option Bytes
  deriving DecidableEq, Repr

/-- The output of a chunk; it is missing when the bsdiff patch never returns. -/
def chunkOutput (L : Libs) (patch : Bytes) : Chunk → Option ChunkOutput
  | .normal _ old patchOffset => match applyBSDiffPatchMem L old patch patchOffset with
    | .ok data => some ⟨.normal, some data⟩
    | .err _ => some ⟨.normal, none⟩
    | .stuck => none
  | .raw _ data => some ⟨.raw, some data⟩
  | .deflate _ parts => some ⟨.deflate, some parts.flatten⟩

def chunkNext : Chunk → Int
  | .normal next _ _ => next
  | .raw next _ => next
  | .deflate next _ => next

/-- The outputs of the chunks from a record on; missing when some record is bad. -/
def chunkOutputs (L : Libs) (old patch : Bytes) (bonus : Option Bytes) :
    Nat → Nat → Int → Option (List ChunkOutput)
  | 0, _, _ => some []
  | left + 1, i, pos => match readChunk L old patch bonus i pos with
    | .ok chunk => do
      let output ← chunkOutput L patch chunk
      let rest ← chunkOutputs L old patch bonus left (i + 1) (chunkNext chunk)
      some (output :: rest)
    | _ => none

/-- Outputs, the codes their chunks ended with, the bytes hashed and the bytes
    stored; `cut` says what a sink may keep of data that it did not take whole. -/
inductive Feeds (cut : Bytes → Bytes → Prop) : List ChunkOutput → List ChunkCode → Bytes → Bytes → Prop where
  | nil : Feeds cut [] [] [] []
  | whole {type : ChunkType} {data : Bytes} {outputs : List ChunkOutput} {codes : List ChunkCode}
      {hashed stored : Bytes} (rest : Feeds cut outputs codes hashed stored) :
      Feeds cut (⟨type, some data⟩ :: outputs) (⟨type, 0⟩ :: codes) (data ++ hashed) (data ++ stored)
  | failed {code : Int} {outputs : List ChunkOutput} {codes : List ChunkCode} {hashed stored : Bytes}
      (bad : code ≠ 0) (rest : Feeds cut outputs codes hashed stored) :
      Feeds cut (⟨.normal, none⟩ :: outputs) (⟨.normal, code⟩ :: codes) hashed stored
  | short {code : Int} {data part : Bytes} {outputs : List ChunkOutput} {codes : List ChunkCode}
      {hashed stored : Bytes} (bad : code ≠ 0) (kept : cut data part)
      (rest : Feeds cut outputs codes hashed stored) :
      Feeds cut (⟨.normal, some data⟩ :: outputs) (⟨.normal, code⟩ :: codes) hashed (part ++ stored)

/-- What a call of a sink keeps of data that it does not take whole. -/
def Cut (sink : Sink σ A) (data part : Bytes) : Prop :=
  ∃ s as n, (sink.call data s as).value = some n ∧ n < data.length ∧ part = data.take n.toNat

section Feeds
variable {cut : Bytes → Bytes → Prop} {outputs : List ChunkOutput} {codes : List ChunkCode} {hashed stored : Bytes}

theorem feeds_whole (feeds : Feeds cut outputs codes hashed stored) (nothing : ∀ data part, cut data part → part = []) :
    stored = hashed := by
  induction feeds with
  | nil => rfl
  | whole rest ih => rw [ih]
  | failed bad rest ih => exact ih
  | short bad kept rest ih => rw [nothing _ _ kept,ih,List.nil_append]
theorem feeds_mono {cut' : Bytes → Bytes → Prop} (feeds : Feeds cut outputs codes hashed stored)
    (more : ∀ data part, cut data part → cut' data part) : Feeds cut' outputs codes hashed stored := by
  induction feeds with
  | nil => exact .nil
  | whole rest ih => exact .whole ih
  | failed bad rest ih => exact .failed bad ih
  | short bad kept rest ih => exact .short bad (more _ _ kept) ih

theorem feeds_agree (feeds : Feeds cut outputs codes hashed stored) (good : ∀ c ∈ codes, c.code = 0) : stored = hashed := by
  induction feeds with
  | nil => rfl
  | whole rest ih => rw [ih fun c member => good c (List.mem_cons_of_mem _ member)]
  | failed bad rest ih => exact absurd (good _ List.mem_cons_self) bad
  | short bad kept rest ih => exact absurd (good _ List.mem_cons_self) bad

end Feeds

/-! ## One call, one chunk -/

variable {as : List A} {ctx' : ShaCtx} {sink : Sink σ A} {codes : List ChunkCode} {R : σ → σ → Prop}

theorem applyBSDiffPatch_returns {old : Old} {patch : Bytes} {off : Int} {ctx : ShaCtx}
    {s : σ} {code : Int} {o : Outcome σ A (Int × ShaCtx)}
    (run : applyBSDiffPatch L old patch off sink ctx s as = o) (returned : o.value = some (code, ctx')) :
    (code = 0 ∧ ∃ data, applyBSDiffPatchMem L old patch off = .ok data ∧ ctx' = ctx ++ data ∧
      sink.stored o.state = sink.stored s ++ data) ∨
    (code ≠ 0 ∧ ctx' = ctx ∧ (∃ e, applyBSDiffPatchMem L old patch off = .err e) ∧
      sink.stored o.state = sink.stored s) ∨
    (code ≠ 0 ∧ ctx' = ctx ∧ ∃ data, applyBSDiffPatchMem L old patch off = .ok data ∧
      ∃ part, Cut sink data part ∧ sink.stored o.state = sink.stored s ++ part) := by
  subst run
  unfold applyBSDiffPatch at returned ⊢
  cases mem : applyBSDiffPatchMem L old patch off with
  | stuck => simp [mem,stuck_run] at returned
  | err e =>
    simp only [mem,pure_run,some.injEq,Prod.mk.injEq] at returned
    obtain ⟨rfl,rfl⟩ := returned
    exact .inr (.inl ⟨by decide,rfl,⟨e,rfl⟩,rfl⟩)
  | ok data =>
    simp only [mem] at returned ⊢
    obtain ⟨n,called,rest⟩ := bind_returns returned
    have law := sink.stores data s as n called
    rw [rest] at returned ⊢
    by_cases less : n < data.length
    · simp only [less,↓reduceIte,pure_run,some.injEq,Prod.mk.injEq] at returned ⊢
      obtain ⟨rfl,rfl⟩ := returned
      exact .inr (.inr ⟨by decide,rfl,data,rfl,_,⟨s,as,n,called,less,rfl⟩,law⟩)
    · simp only [less,↓reduceIte,pure_run,some.injEq,Prod.mk.injEq] at returned ⊢
      obtain ⟨rfl,rfl⟩ := returned
      refine .inl ⟨rfl,data,rfl,rfl,?_⟩
      rw [law,List.take_of_length_le (by omega)]

private theorem writePieces_returns {parts : List Bytes} {ctx : ShaCtx} {s : σ}
    {o : Outcome σ A (Int × ShaCtx)} (run : writePieces sink parts ctx s as = o)
    (returned : o.value = some (0, ctx')) :
    ctx' = ctx ++ parts.flatten ∧ sink.stored o.state = sink.stored s ++ parts.flatten := by
  induction parts generalizing ctx s as o with
  | nil =>
    subst run
    simp only [writePieces,pure_run,some.injEq,Prod.mk.injEq,true_and] at returned ⊢
    simp [returned]
  | cons piece parts ih =>
    subst run
    simp only [writePieces] at returned ⊢
    obtain ⟨n,called,rest⟩ := bind_returns returned
    have law := sink.stores piece s as n called
    rw [rest] at returned ⊢
    by_cases all : n ≠ piece.length
    · simp [all,pure_run] at returned
    · simp only [all,↓reduceIte] at returned ⊢
      obtain ⟨hashed,stored⟩ := ih rfl returned
      rw [List.take_of_length_le (by omega)] at law
      simp [hashed,stored,law]

theorem applyChunk_next {patch : Bytes} {read : Ret Chunk} {ctx : ShaCtx} {pos : Int}
    {code : ChunkCode} {s : σ} {o : Outcome σ A ChunkDone}
    (run : applyChunk L patch sink ctx read s as = o) (returned : o.value = some (.next pos ctx' code)) :
    ∃ chunk output hashed stored, read = .ok chunk ∧ chunkOutput L patch chunk = some output ∧
      chunkNext chunk = pos ∧ Feeds (Cut sink) [output] [code] hashed stored ∧ ctx' = ctx ++ hashed ∧
      sink.stored o.state = sink.stored s ++ stored := by
  subst run
  match read with
  | .stuck => simp [applyChunk,stuck_run] at returned
  | .err _ => simp [applyChunk,pure_run] at returned
  | .ok (.normal next old off) =>
    simp only [applyChunk] at returned ⊢
    obtain ⟨⟨bsCode,bsCtx⟩,patched,rest⟩ := bind_returns returned
    rw [rest] at returned ⊢
    simp only [pure_run,some.injEq,ChunkDone.next.injEq] at returned ⊢
    obtain ⟨rfl,rfl,rfl⟩ := returned
    obtain ⟨rfl,data,mem,rfl,stored⟩ | ⟨bad,rfl,⟨e,mem⟩,stored⟩ | ⟨bad,rfl,data,mem,part,kept,stored⟩ :=
      applyBSDiffPatch_returns rfl patched
    · exact ⟨_,⟨.normal,some data⟩,data,data,rfl,by simp [chunkOutput,mem],rfl,
        by simpa using Feeds.whole Feeds.nil,rfl,stored⟩
    · exact ⟨_,⟨.normal,none⟩,[],[],rfl,by simp [chunkOutput,mem],rfl,.failed bad .nil,by simp,
        by simpa using stored⟩
    · exact ⟨_,⟨.normal,some data⟩,[],part,rfl,by simp [chunkOutput,mem],rfl,
        by simpa using Feeds.short bad kept Feeds.nil,by simp,stored⟩
  | .ok (.raw next data) =>
    simp only [applyChunk] at returned ⊢
    obtain ⟨n,called,rest⟩ := bind_returns returned
    have law := sink.stores data s as n called
    rw [rest] at returned ⊢
    by_cases all : n ≠ data.length
    · simp [all,pure_run] at returned
    · simp only [all,↓reduceIte,pure_run,some.injEq,ChunkDone.next.injEq] at returned ⊢
      obtain ⟨rfl,rfl,rfl⟩ := returned
      rw [List.take_of_length_le (by omega)] at law
      exact ⟨_,_,data,data,rfl,rfl,rfl,by simpa using Feeds.whole Feeds.nil,rfl,law⟩
  | .ok (.deflate next parts) =>
    simp only [applyChunk] at returned ⊢
    obtain ⟨⟨code,written⟩,done,rest⟩ := bind_returns returned
    rw [rest] at returned ⊢
    by_cases bad : code ≠ 0
    · simp [bad,pure_run] at returned
    simp only [bad,↓reduceIte,pure_run,some.injEq,ChunkDone.next.injEq] at returned ⊢
    obtain ⟨rfl,rfl,rfl⟩ := returned
    obtain rfl : code = 0 := by simpa using bad
    obtain ⟨hashed,stored⟩ := writePieces_returns rfl done
    exact ⟨_,_,parts.flatten,parts.flatten,rfl,rfl,rfl,by simpa using Feeds.whole Feeds.nil,hashed,stored⟩

/-! ## The loop -/

private theorem feeds_cons {cut : Bytes → Bytes → Prop} {output : ChunkOutput} {code : ChunkCode} {hashed stored : Bytes}
    (head : Feeds cut [output] [code] hashed stored) {outputs : List ChunkOutput}
    {hashed' stored' : Bytes} (tail : Feeds cut outputs codes hashed' stored') :
    Feeds cut (output :: outputs) (code :: codes) (hashed ++ hashed') (stored ++ stored') := by
  cases head with
  | whole rest => cases rest; simpa using tail.whole
  | failed bad rest => cases rest; simpa using tail.failed bad
  | short bad kept rest => cases rest; simpa using tail.short bad kept

private theorem chunkLoop_feeds {old patch : Bytes} {bonus : Option Bytes} {left i : Nat} {pos : Int}
    {ctx : ShaCtx} {codes' : List ChunkCode} {s : σ}
    {o : Outcome σ A (Int × ShaCtx × List ChunkCode)}
    (run : chunkLoop L old patch bonus sink left i pos ctx codes s as = o)
    (returned : o.value = some (0, ctx', codes')) :
    ∃ outputs new hashed stored, chunkOutputs L old patch bonus left i pos = some outputs ∧
      Feeds (Cut sink) outputs new hashed stored ∧ codes' = codes ++ new ∧ ctx' = ctx ++ hashed ∧
      sink.stored o.state = sink.stored s ++ stored := by
  induction left generalizing i pos ctx codes s as o with
  | zero =>
    subst run
    simp only [chunkLoop,pure_run,some.injEq,Prod.mk.injEq,true_and] at returned ⊢
    obtain ⟨rfl,rfl⟩ := returned
    exact ⟨[],[],[],[],rfl,.nil,by simp⟩
  | succ left ih =>
    subst run
    simp only [chunkLoop] at returned ⊢
    obtain ⟨done,applied,rest⟩ := bind_returns returned
    rw [rest] at returned ⊢
    match done with
    | .fail _ => simp [pure_run] at returned
    | .next next mid code =>
      obtain ⟨chunk,output,hashed,stored,readOk,outputOk,rfl,head,rfl,store⟩ := applyChunk_next rfl applied
      obtain ⟨outputs,new,hashed',stored',outs,tail,rfl,rfl,store'⟩ := ih rfl returned
      refine ⟨output :: outputs,code :: new,_,_,?_,feeds_cons head tail,by simp,by simp,?_⟩
      · simp [chunkOutputs,readOk,outputOk,outs]
      · rw [store',store,List.append_assoc]

def imageOutputs (L : Libs) (old patch : Bytes) (bonus : Option Bytes) : Option (List ChunkOutput) :=
  if patch.length < 12 ∨ patch.take 8 ≠ imgdiffMagic then none
  else chunkOutputs L old patch bonus (Numbers.read4 (patch.drop 8)).toNat 0 12

theorem applyImagePatchCodes_feeds {old patch : Bytes} {bonus : Option Bytes}
    {ctx : ShaCtx} {s : σ}
    {o : Outcome σ A (Int × ShaCtx × List ChunkCode)}
    (run : applyImagePatchCodes L old patch sink ctx bonus s as = o) (returned : o.value = some (0, ctx', codes)) :
    ∃ outputs hashed stored, imageOutputs L old patch bonus = some outputs ∧
      Feeds (Cut sink) outputs codes hashed stored ∧ ctx' = ctx ++ hashed ∧
      sink.stored o.state = sink.stored s ++ stored := by
  subst run
  unfold applyImagePatchCodes at returned ⊢
  by_cases short : patch.length < 12
  · simp [short,pure_run] at returned
  by_cases magic : patch.take 8 ≠ imgdiffMagic
  · simp [short,magic,pure_run] at returned
  simp only [short,magic,↓reduceIte] at returned ⊢
  obtain ⟨outputs,new,hashed,stored,outs,feeds,codesEq,ctxEq,store⟩ := chunkLoop_feeds rfl returned
  obtain rfl : codes = new := by simpa using codesEq
  exact ⟨outputs,hashed,stored,by simp [imageOutputs,short,magic,outs],feeds,ctxEq,store⟩

/-! ## Frames -/

theorem applyBSDiffPatch_keeps [IsPreorder σ R]
    (calls : ∀ data, Keeps R (sink.call data)) (old : Old) (patch : Bytes) (off : Int)
    (ctx : ShaCtx) : Keeps R (applyBSDiffPatch L old patch off sink ctx) := by
  unfold applyBSDiffPatch
  cases applyBSDiffPatchMem L old patch off with
  | stuck => exact keeps_stuck
  | err e => exact keeps_pure _
  | ok data =>
    exact keeps_bind (calls data) fun n => keeps_ite (fun _ => keeps_pure _) fun _ => keeps_pure _
private theorem writePieces_keeps [IsPreorder σ R]
    (calls : ∀ data, Keeps R (sink.call data)) (parts : List Bytes) (ctx : ShaCtx) :
    Keeps R (writePieces sink parts ctx) := by
  induction parts generalizing ctx with
  | nil => exact keeps_pure _
  | cons piece parts ih =>
    exact keeps_bind (calls piece) fun n => keeps_ite (fun _ => keeps_pure _) fun _ => ih _
theorem applyImagePatch_keeps [IsPreorder σ R]
    (calls : ∀ data, Keeps R (sink.call data)) (old patch : Bytes) (ctx : ShaCtx)
    (bonus : Option Bytes) : Keeps R (applyImagePatch L old patch sink ctx bonus) := by
  have chunk (read : Ret Chunk) (ctx : ShaCtx) : Keeps R (applyChunk L patch sink ctx read) := by
    match read with
    | .stuck => exact keeps_stuck
    | .err _ => exact keeps_pure _
    | .ok (.normal next old off) =>
      exact keeps_bind (applyBSDiffPatch_keeps calls _ _ _ _) fun _ => keeps_pure _
    | .ok (.raw next data) =>
      exact keeps_bind (calls data) fun n => keeps_ite (fun _ => keeps_pure _) fun _ => keeps_pure _
    | .ok (.deflate next parts) =>
      exact keeps_bind (writePieces_keeps calls _ _) fun _ =>
        keeps_ite (fun _ => keeps_pure _) fun _ => keeps_pure _
  have loop (left i : Nat) (pos : Int) (ctx : ShaCtx) (codes : List ChunkCode) :
      Keeps R (chunkLoop L old patch bonus sink left i pos ctx codes) := by
    induction left generalizing i pos ctx codes with
    | zero => exact keeps_pure _
    | succ left ih =>
      refine keeps_bind (chunk _ _) fun done => ?_
      cases done with
      | fail ctx => exact keeps_pure _
      | next pos ctx code => exact ih _ _ _ _
  refine keeps_bind ?_ fun _ => keeps_pure _
  exact keeps_ite (fun _ => keeps_pure _) fun _ => keeps_ite (fun _ => keeps_pure _) fun _ => loop _ _ _ _ _

end Recovery.PatchStreams
