import Recovery.SignedZip
import Recovery.Asn1Bounds

/-!
Where `verify_file` and `read_pkcs7` read in the end-of-central-directory buffer.
-/
namespace Recovery.SignatureReads
open Memory Numbers Program Program.Prog Asn1 Verifier List
open Minzip SignedZip Asn1Bounds

/-! ## Reaching `read_pkcs7` -/

section
variable {Rsa P256 : Type} {keys : List (Certificate Rsa P256)} {file : Bytes}

theorem can_answer {P : OpenFile → Prop} : Can P (ask : Reader Bool) fun ok f => ok = true ∧ P f :=
  can_ask true fun _ holds => ⟨rfl,holds⟩
theorem can_seekBack (back : Nat) {p : Nat} (inside : back ≤ file.length) :
    Can (fun f => f = ⟨file,p⟩) (seekBack back) fun ok f => ok = true ∧ f = ⟨file,file.length - back⟩ := by
  refine can_bind can_answer fun ok => can_assume fun f here => ?_
  obtain ⟨rfl,rfl⟩ := here
  refine can_bind (can_get (Q := fun got f => got = ⟨file,p⟩ ∧ f = ⟨file,p⟩) fun t same => ⟨same,same⟩) fun got => ?_
  refine can_assume fun f here => ?_
  obtain ⟨rfl,rfl⟩ := here
  rw [if_pos ⟨rfl,inside⟩]
  exact can_bind (can_modify (Q := fun _ f => f = ⟨file,file.length - back⟩) (by rintro t rfl; rfl)) fun _ =>
    can_pure _ fun _ moved => ⟨rfl,moved⟩
theorem fread_run (n p : Nat) (rest : List Bool) : fread n ⟨file,p⟩ (true :: rest) =
    ⟨some ((file.drop p).take n),⟨file,p + ((file.drop p).take n).length⟩,rest⟩ := rfl
theorem can_fread (n p : Nat) : Can (fun f => f = ⟨file,p⟩) (fread n)
    fun bytes f => bytes = (file.drop p).take n ∧ f = ⟨file,p + bytes.length⟩ := by
  rintro f rfl
  exact ⟨[true],_,_,⟨rfl,rfl⟩,fread_run n p⟩
private theorem can_rewind (p : Nat) : Can (fun f => f = ⟨file,p⟩) rewind fun _ f => f = ⟨file,0⟩ := by
  refine can_bind can_answer fun ok => can_assume fun f here => ?_
  obtain ⟨rfl,rfl⟩ := here
  exact can_modify (by rintro t rfl; rfl)

private theorem can_hash (needSha1 needSha256 : Bool) {signedLen : Nat} (inside : signedLen ≤ file.length) :
    Can (fun f => f = ⟨file,0⟩) (hashLoop needSha1 needSha256 signedLen (0, [], [])) fun r _ => ∃ ctx, r = some ctx := by
  refine can_pre (can_iterate (I := fun b f => b.1 ≤ signedLen ∧ f = ⟨file,b.1⟩) (fun b => signedLen - b.1) ?_ (0,[],[]))
    fun f here => ⟨by simp,here⟩
  rintro ⟨soFar,sha1Ctx,sha256Ctx⟩ f ⟨upTo,rfl⟩
  by_cases more : soFar < signedLen
  · set size := min bufferSize (signedLen - soFar) with sizes
    set buffer := (file.drop soFar).take size with bytes
    have count : buffer.length = size := by
      simp only [bytes,length_take,length_drop]
      omega
    have positive : 0 < size := by
      simp only [sizes,bufferSize]
      omega
    refine ⟨[true],.inl (soFar + size,if needSha1 then sha1Ctx ++ buffer else sha1Ctx,
      if needSha256 then sha256Ctx ++ buffer else sha256Ctx),⟨file,soFar + size⟩,fun rest => ?_,by simp,?_,?_,rfl⟩
    · dsimp only
      rw [if_pos more,bind_run,singleton_append,fread_run,next_some rfl,← sizes,← bytes,if_neg (not_not.mpr count),
        count]
      rfl
    · omega
    · omega
  · exact ⟨[],.inr (some (sha1Ctx,sha256Ctx)),⟨file,soFar⟩,fun rest => by dsimp only; rw [if_neg more]; rfl,_,rfl⟩

private theorem can_handOver (keys : List (Certificate Rsa P256)) (reaches : Reaches file) :
    Can (fun f => f = ⟨file,0⟩) (handOver keys) fun r _ => ∃ handed, r.1 = some handed := by
  obtain ⟨⟨second,third⟩,far,long,record,scanned⟩ := reaches
  have six : 6 ≤ file.length := by
    unfold eocdSize at long
    omega
  refine can_bind can_answer fun ok => can_assume fun f here => ?_
  obtain ⟨rfl,rfl⟩ := here
  rw [if_neg (by simp)]
  refine can_bind (can_seekBack footerSize six) fun ok => can_assume fun f here => ?_
  obtain ⟨rfl,rfl⟩ := here
  rw [if_neg (by simp)]
  refine can_bind (can_fread footerSize _) fun footer => can_assume fun f here => ?_
  obtain ⟨bytes,rfl⟩ := here
  have whole : footer.length = footerSize := by
    rw [bytes]
    simp only [length_take,length_drop,footerSize]
    omega
  obtain ⟨start,two,three,size⟩ := footer_of_last six bytes
  rw [if_neg (not_not.mpr whole),if_neg (by simp [two,three,second,third])]
  dsimp only
  rw [size,start,if_neg (by simpa [footerSize] using far)]
  refine can_bind (can_seekBack (commentSize file + eocdHeaderSize) long) fun ok => can_assume fun f here => ?_
  obtain ⟨rfl,rfl⟩ := here
  rw [if_neg (by simp)]
  refine can_bind (can_get (Q := fun got f => got = ⟨file,file.length - (commentSize file + eocdHeaderSize)⟩ ∧
    f = ⟨file,file.length - (commentSize file + eocdHeaderSize)⟩) fun t same => ⟨same,same⟩) fun got => ?_
  refine can_assume fun f here => ?_
  obtain ⟨rfl,rfl⟩ := here
  refine can_bind can_answer fun ok => can_assume fun f here => ?_
  obtain ⟨rfl,rfl⟩ := here
  rw [if_neg (by simp)]
  have place : file.length - (commentSize file + eocdHeaderSize) = recordStart file := by
    simp only [eocdHeaderSize,recordStart]
    omega
  refine can_bind (can_fread _ _) fun eocd => can_assume fun f here => ?_
  obtain ⟨bytes,rfl⟩ := here
  rw [place] at bytes
  have total : eocd.length = commentSize file + eocdHeaderSize := by
    rw [bytes]
    simp only [length_take,length_drop,eocdSize,recordStart,eocdHeaderSize] at long ⊢
    omega
  have rest : eocd = file.drop (recordStart file) := by
    rw [bytes]
    refine take_of_length_le ?_
    simp only [length_drop,recordStart,eocdHeaderSize,eocdSize] at long ⊢
    omega
  have marked : markerAt eocd 0 = true := by
    rw [rest]
    exact (markerAt_iff file _ 0).mpr record
  have alone : ¬ (range' 4 (commentSize file + eocdHeaderSize - 3 - 4)).any (markerAt eocd) = true := by
    intro again
    obtain ⟨i,listed,there⟩ := any_eq_true.mp again
    rw [rest] at there
    obtain ⟨low,high⟩ := mem_range'_1.mp listed
    refine scanned i low ?_ ((markerAt_iff file _ i).mp there)
    simp only [recordStart,eocdHeaderSize,eocdSize] at high long ⊢
    omega
  rw [if_neg (not_not.mpr total),if_neg (not_not.mpr marked),if_neg alone]
  refine can_bind can_answer fun ok => can_assume fun f here => ?_
  obtain ⟨rfl,rfl⟩ := here
  refine can_bind (can_rewind _) fun _ => can_bind (can_hash _ _ ?_) fun hashed => can_pure _ ?_
  · simp only [eocdHeaderSize,eocdSize] at long ⊢
    omega
  · rintro _ ⟨ctx,rfl⟩
    exact ⟨_,rfl⟩

/-! ## The two lengths -/

def ReadsInside (room : Nat → Bool) (outside : Mem) (keys : List (Certificate Rsa P256)) (file : Bytes) : Prop :=
  ∀ answers reads, (eocdReads room outside keys ⟨file, 0⟩ answers).value = some reads → Inside file reads
/-- The block handed to `read_pkcs7` is in the comment, the part of the buffer after the
    fixed fields of the record. -/
def BlockInComment (keys : List (Certificate Rsa P256)) (file : Bytes) : Prop :=
  ∀ answers handed reads, (handOver keys ⟨file, 0⟩ answers).value = some (some handed, reads) →
    (eocdHeaderSize : Int) ≤ handed.pkcs7Der ∧ handed.pkcs7Der + handed.pkcs7DerLen ≤ handed.eocd.length

theorem eocd_length {handed : Handed} (done : HandedFor keys file handed) : handed.eocd.length = eocdSize file := by
  have long := done.reaches.long
  simp only [done.eocd,length_drop,recordStart,eocdSize] at long ⊢
  omega
theorem block_in_comment {handed : Handed} (done : HandedFor keys file handed) :
    ((eocdHeaderSize : Int) ≤ handed.pkcs7Der ∧ handed.pkcs7Der + handed.pkcs7DerLen ≤ handed.eocd.length) ↔
      signatureStart file ≤ commentSize file := by
  rw [eocd_length done,done.pkcs7Der,done.pkcs7DerLen]
  simp only [eocdHeaderSize,eocdSize]
  omega

/-- The block is in the comment and the reads are in the buffer exactly when the footer of
    a file that gets that far puts the signature inside the comment: nothing compares the
    two lengths. -/
theorem signature_reads_inside_iff (room : Nat → Bool) (outside : Mem) (keys : List (Certificate Rsa P256)) (file : Bytes) :
    (ReadsInside room outside keys file ∧ BlockInComment keys file) ↔
      (Reaches file → signatureStart file ≤ commentSize file) := by
  have spec {answers : List Bool} {r : Option Handed × List Int}
      (returned : (handOver keys ⟨file, 0⟩ answers).value = some r) :
      Inside file r.2 ∧ ∀ handed, r.1 = some handed → HandedFor keys file handed :=
    (handOver_spec ⟨file, 0⟩ answers rfl).1 r returned
  constructor
  · rintro ⟨-, inComment⟩ reaches
    obtain ⟨answers, ⟨_, reads⟩, f, ⟨handed, rfl⟩, runs⟩ := can_handOver keys reaches ⟨file, 0⟩ rfl
    have returned : (handOver keys ⟨file, 0⟩ (answers ++ [])).value = some (some handed, reads) := by rw [runs]
    exact (block_in_comment ((spec returned).2 handed rfl)).mp (inComment _ _ _ returned)
  · intro small
    refine ⟨fun answers reads returned => ?_, fun answers handed reads returned => ?_⟩
    · unfold eocdReads at returned
      obtain ⟨⟨handed, first⟩, handedOver, rest⟩ := bind_returns returned
      rw [rest] at returned
      obtain ⟨inside, done⟩ := spec handedOver
      cases handed with
      | none =>
        obtain rfl : first = reads := by simpa [pure_run] using returned
        exact inside
      | some handed =>
        obtain rfl : first ++ pkcs7Reads (memoryAround handed.eocd outside) room handed.pkcs7Der handed.pkcs7DerLen = reads := by
          simpa [pure_run] using returned
        have done := done handed rfl
        obtain ⟨low, high⟩ := (block_in_comment done).mpr (small done.reaches)
        rw [eocd_length done] at high
        intro a member
        rcases mem_append.mp member with early | late
        · exact inside a early
        · have := pkcs7Reads_inside _ _ _ _ a late
          omega
    · have done := (spec returned).2 handed rfl
      exact (block_in_comment done).mpr (small done.reaches)

end

def footerOnly : Bytes :=
  [0x50, 0x4b, 5, 6, 0, 0, 0, 0, 0, 0, 0, 0, 0, 0, 0, 0, 0, 0, 0, 0, 6, 0, 0xe8, 3, 0xff, 0xff, 6, 0]

theorem signature_read_before_buffer : ∃ answers reads,
    (eocdReads (fun _ => true) (fun _ => 0) ([] : List (Certificate Unit Unit)) ⟨footerOnly, 0⟩ answers).value = some reads ∧
      -972 ∈ reads :=
  ⟨List.replicate 10 true, _, rfl, by decide⟩

end Recovery.SignatureReads
