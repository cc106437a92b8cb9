import Recovery.Verifier
import Recovery.Minzip
import Recovery.StoredLibs

/-!
What a verified package is installed from.
-/
namespace Recovery.SignedZip
open Memory Numbers Program Program.Prog Asn1 Verifier List
open Minzip StoredLibs

/-! ## Reads -/

section
variable (file : Bytes)

theorem seekBack_spec (back : Nat) : Triple (fun f => f.data = file) (seekBack back)
    (fun ok f => f.data = file ∧ (ok = true → back ≤ file.length ∧ f.pos = file.length - back)) fun _ => True := by
  refine triple_ask_bind (fun _ _ => trivial) fun ok => ?_
  refine triple_bind (triple_get (Q := fun got f => got = f ∧ f.data = file) fun f same => ⟨rfl,same⟩) fun got => ?_
  refine triple_ite (fun inside => ?_) fun _ => triple_pure _ fun f both => ⟨both.2,by simp⟩
  refine triple_bind (triple_modify (Q := fun _ f => f.data = file ∧ back ≤ file.length ∧ f.pos = file.length - back) ?_)
    fun _ => triple_pure _ fun f both => ⟨both.1,fun _ => both.2⟩
  rintro f ⟨rfl,rfl⟩
  exact ⟨rfl,inside.2,rfl⟩
private theorem rewind_spec (p : Nat) : Triple (fun f => f.data = file ∧ f.pos = p) rewind
    (fun _ f => f.data = file ∧ (f.pos = 0 ∨ f.pos = p)) fun _ => True := by
  refine triple_ask_bind (fun _ _ => trivial) fun ok => triple_modify ?_
  rintro f ⟨data,pos⟩
  split
  · exact ⟨data,.inl rfl⟩
  · exact ⟨data,.inr pos⟩
theorem fread_spec (n p : Nat) : Triple (fun f => f.data = file ∧ f.pos = p) (fread n)
    (fun bytes f => f.data = file ∧ f.pos = p + bytes.length ∧ (bytes.length = n → bytes = (file.drop p).take n))
    fun _ => True := by
  refine triple_ask_bind (fun _ _ => trivial) fun ok => ?_
  refine triple_bind (triple_get (Q := fun got f => got = f ∧ f.data = file ∧ f.pos = p) fun f same => ⟨rfl,same⟩)
    fun got => ?_
  refine triple_assume fun f here => ?_
  obtain ⟨rfl,rfl,rfl⟩ := here
  refine triple_bind (triple_modify (Q := fun _ t => t.data = got.data ∧
    t.pos = got.pos + (if ok = true then (got.data.drop got.pos).take n else []).length) ?_) fun _ => triple_pure _ ?_
  · rintro t rfl
    exact ⟨rfl,rfl⟩
  rintro t ⟨data,pos⟩
  refine ⟨data,pos,fun whole => ?_⟩
  cases ok with
  | true => rfl
  | false =>
    have none : n = 0 := by simpa using whole.symm
    simp [none]

private theorem hashLoop_spec (needSha1 needSha256 : Bool) (signedLen start : Nat) :
    Triple (fun f => f.data = file ∧ f.pos = start) (hashLoop needSha1 needSha256 signedLen (0, [], []))
      (fun result _ => ∀ sha1Ctx sha256Ctx, result = some (sha1Ctx, sha256Ctx) →
        (start ≤ file.length → start + signedLen ≤ file.length) ∧
        (needSha1 = true → sha1Ctx = (file.drop start).take signedLen) ∧
        (needSha256 = true → sha256Ctx = (file.drop start).take signedLen)) fun _ => True := by
  refine triple_pre (triple_iterate (I := fun (b : Nat × Bytes × Bytes) f => f.data = file ∧ f.pos = start + b.1 ∧
      b.1 ≤ signedLen ∧ (start ≤ file.length → start + b.1 ≤ file.length) ∧
      (needSha1 = true → b.2.1 = (file.drop start).take b.1) ∧ (needSha256 = true → b.2.2 = (file.drop start).take b.1))
    ?_ (fun _ _ _ => trivial) (0,[],[])) fun f both => ⟨both.1,by simpa using both.2,by simp⟩
  rintro ⟨soFar,sha1Ctx,sha256Ctx⟩
  refine triple_ite (fun more => ?_) fun finished => triple_pure _ ?_
  · dsimp only
    refine triple_assume fun f inv => ?_
    obtain ⟨data,pos,bound,inside,first,second⟩ := inv
    refine triple_bind (triple_pre (fread_spec file _ (start + soFar)) (by rintro t rfl; exact ⟨data,pos⟩)) fun buffer => ?_
    refine triple_ite (fun _ => triple_pure _ fun _ _ => by simp) fun whole => triple_pure _ ?_
    rw [not_not] at whole
    rintro t ⟨data,pos,bytes⟩
    have read := bytes whole
    have step : (file.drop start).take soFar ++ buffer = (file.drop start).take (soFar + buffer.length) := by
      rw [take_add,drop_drop,whole,← read]
    have room : start ≤ file.length → start + (soFar + buffer.length) ≤ file.length := by
      intro low
      have size := congrArg length read
      simp only [length_take,length_drop] at size
      omega
    rw [← whole]
    refine ⟨data,by omega,by omega,room,fun need => ?_,fun need => ?_⟩
    · rw [if_pos need,first need,step]
    · rw [if_pos need,second need,step]
  · rintro f ⟨data,pos,bound,inside,first,second⟩
    have whole : soFar = signedLen := by omega
    intro s1 s2 same
    obtain ⟨rfl,rfl⟩ := Prod.mk.inj (Option.some.inj same)
    rw [← whole]
    exact ⟨inside,first,second⟩

end

/-! ## The footer and the record -/

def commentSize (file : Bytes) : Nat := byteAt file (file.length - 2) + (byteAt file (file.length - 1) <<< 8)
/-- How far from the end the signature starts, in the first two bytes of the footer. -/
def signatureStart (file : Bytes) : Nat := byteAt file (file.length - 6) + (byteAt file (file.length - 5) <<< 8)
def signedBytes (file : Bytes) : Bytes := file.take (file.length - (commentSize file + 2))
def recordStart (file : Bytes) : Nat := file.length - 22 - commentSize file

theorem byteAt_drop (b : Bytes) (n i : Nat) : byteAt (b.drop n) i = byteAt b (n + i) := by
  simp [byteAt,getD_eq_getElem?_getD]
theorem byteAt_take {b : Bytes} {n i : Nat} (inside : i < n) : byteAt (b.take n) i = byteAt b i := by
  simp [byteAt,getD_eq_getElem?_getD,inside]

theorem markerAt_iff (file : Bytes) (start i : Nat) : markerAt (file.drop start) i = true ↔ EndsAt file (start + i) := by
  simp [markerAt,EndsAt,byteAt_drop,Nat.add_assoc]

/-- The verifier's scan leaves no place for a later record: it starts four bytes on, and
    the marker does not overlap itself. -/
theorem last_record {file : Bytes} {start : Nat} (here : EndsAt file start)
    (scanned : ∀ i, 4 ≤ i → start + i + 4 ≤ file.length → ¬ EndsAt file (start + i)) {ptr : Nat} (after : start < ptr)
    (inside : ptr + 4 ≤ file.length) : ¬ EndsAt file ptr := by
  intro there
  obtain ⟨i,rfl⟩ : ∃ i, ptr = start + i := ⟨ptr - start,by omega⟩
  by_cases close : i < 4
  · obtain ⟨-,second,third,fourth⟩ := here
    have first := there.1
    obtain rfl | rfl | rfl : i = 1 ∨ i = 2 ∨ i = 3 := by omega
    · omega
    · omega
    · omega
  · exact scanned i (by omega) (by omega) there

section
variable {Rsa P256 : Type} {C : Mincrypt Rsa P256} {room : Nat → Bool} {outside : Mem}
  {keys : List (Certificate Rsa P256)} {file : Bytes}

private theorem hashFor_signed {cert : Certificate Rsa P256} (given : cert ∈ keys) {data sha1Ctx sha256Ctx : Bytes}
    (first : keys.any (·.hashLen = shaDigestSize) = true → sha1Ctx = data)
    (second : keys.any (·.hashLen = sha256DigestSize) = true → sha256Ctx = data) :
    hashFor C cert.hashLen sha1Ctx sha256Ctx = hashFor C cert.hashLen data data := by
  unfold hashFor
  by_cases short : cert.hashLen = shaDigestSize
  · rw [if_pos short,if_pos short,first (any_eq_true.mpr ⟨cert,given,by simpa using short⟩)]
  · rw [if_neg short,if_neg short]
    by_cases long : cert.hashLen = sha256DigestSize
    · rw [if_pos long,if_pos long,second (any_eq_true.mpr ⟨cert,given,by simpa using long⟩)]
    · rw [if_neg long,if_neg long]

/-- Some key accepts the signature in the record for the hash of these bytes. -/
def Accepted (C : Mincrypt Rsa P256) (room : Nat → Bool) (outside : Mem) (keys : List (Certificate Rsa P256))
    (signatureStart : Nat) (eocd signed : Bytes) : Prop :=
  ∃ sigDer, readPkcs7 (memoryAround eocd outside) room ((eocd.length : Int) - signatureStart)
      (signatureStart - footerSize) = some sigDer ∧
    ∃ cert ∈ keys, ∃ hash, hashFor C cert.hashLen signed signed = some hash ∧ keyVerifies C cert sigDer hash = true

theorem asked {P : OpenFile → Prop} : Triple P (ask : Reader Bool) (fun _ => P) fun _ => True :=
  triple_ask (fun _ _ h => h) fun _ _ => trivial

def eocdSize (file : Bytes) : Nat := commentSize file + 22

/-- What the file must have for `verify_file` to get to `read_pkcs7`. -/
structure Reaches (file : Bytes) : Prop where
  footer : byteAt file (file.length - 4) = 0xff ∧ byteAt file (file.length - 3) = 0xff
  far : 6 < signatureStart file
  long : eocdSize file ≤ file.length
  record : EndsAt file (recordStart file)
  scanned : ∀ i, 4 ≤ i → recordStart file + i + 4 ≤ file.length → ¬ EndsAt file (recordStart file + i)

/-- What is handed to `read_pkcs7` for a file. -/
structure HandedFor (keys : List (Certificate Rsa P256)) (file : Bytes) (handed : Handed) : Prop where
  reaches : Reaches file
  eocd : handed.eocd = file.drop (recordStart file)
  pkcs7Der : handed.pkcs7Der = (eocdSize file : Int) - signatureStart file
  pkcs7DerLen : handed.pkcs7DerLen = signatureStart file - 6
  sha1 : keys.any (·.hashLen = shaDigestSize) = true → handed.sha1Ctx = signedBytes file
  sha256 : keys.any (·.hashLen = sha256DigestSize) = true → handed.sha256Ctx = signedBytes file

def Inside (file : Bytes) (reads : List Int) : Prop := ∀ a ∈ reads, 0 ≤ a ∧ a < eocdSize file

theorem markerReads_inside {eocd : Bytes} {i : Nat} (room : i + 3 < eocdSize file) : Inside file (markerReads eocd i) := by
  intro a member
  have close : a = i ∨ a = i + 1 ∨ a = i + 2 ∨ a = i + 3 := by
    unfold markerReads at member
    split at member <;> try split at member
    all_goals try split at member
    all_goals simp at member; omega
  omega
private theorem scanReads_inside {eocd : Bytes} {places : List Nat} (room : ∀ i ∈ places, i + 3 < eocdSize file) :
    Inside file (scanReads eocd places) := by
  induction places with
  | nil => exact fun a member => by cases member
  | cons i rest ih =>
    intro a member
    rcases mem_append.mp member with here | later
    · exact markerReads_inside (room i mem_cons_self) a here
    · split at later
      · cases later
      · exact ih (fun j listed => room j (mem_cons_of_mem _ listed)) a later

theorem gave_up {P : OpenFile → Prop} {reads : List Int} (inside : Inside file reads) :
    Triple P (pure (none, reads) : Reader (Option Handed × List Int))
      (fun r _ => Inside file r.2 ∧ ∀ handed, r.1 = some handed → HandedFor keys file handed) fun _ => True :=
  triple_pure _ fun _ _ => ⟨inside,fun _ equal => by cases equal⟩
theorem inside_nil : Inside file [] := fun a member => by cases member

private theorem hashed_signed {needSha1 needSha256 : Bool} {signedLen : Nat} (some : 0 < signedLen) :
    Triple (fun f => f.data = file ∧ f.pos = file.length)
      (do rewind; hashLoop needSha1 needSha256 signedLen (0, [], []))
      (fun result _ => ∀ ctx, result = .some ctx →
        (needSha1 = true → ctx.1 = file.take signedLen) ∧ (needSha256 = true → ctx.2 = file.take signedLen))
      fun _ => True := by
  refine triple_bind (rewind_spec file file.length) fun _ => triple_assume fun f here => ?_
  refine triple_conseq (hashLoop_spec file _ _ _ f.pos) (by rintro t rfl; exact ⟨here.1,rfl⟩)
    (fun result _ hashed ctx equal => ?_) fun _ h => h
  obtain ⟨inside,first,second⟩ := hashed ctx.1 ctx.2 equal
  have atStart : f.pos = 0 := by
    refine here.2.resolve_right fun atEnd => ?_
    omega
  rw [atStart,drop_zero] at first second
  exact ⟨first,second⟩

/-- The footer is the last six bytes of the file. -/
structure Footer (file footer : Bytes) : Prop where
  start : byteAt footer 0 + (byteAt footer 1 <<< 8) = signatureStart file
  second : byteAt footer 2 = byteAt file (file.length - 4)
  third : byteAt footer 3 = byteAt file (file.length - 3)
  size : byteAt footer 4 + (byteAt footer 5 <<< 8) = commentSize file
theorem footer_of_last {footer : Bytes} (six : 6 ≤ file.length)
    (bytes : footer = (file.drop (file.length - footerSize)).take footerSize) : Footer file footer := by
  have footerByte {i : Nat} (inside : i < 6) : byteAt footer i = byteAt file (file.length - 6 + i) := by
    rw [bytes,footerSize,byteAt_take inside,byteAt_drop]
  constructor <;> simp only [footerByte,Nat.reduceLT,signatureStart,commentSize] <;> congr 3 <;> omega

theorem handOver_spec : Triple (fun f => f.data = file) (handOver keys)
    (fun r _ => Inside file r.2 ∧ ∀ handed, r.1 = some handed → HandedFor keys file handed) fun _ => True := by
  refine triple_bind asked fun _ => triple_ite (fun _ => gave_up inside_nil) fun _ => ?_
  refine triple_bind (seekBack_spec file footerSize) fun ok => triple_ite (fun _ => gave_up inside_nil) fun sought => ?_
  refine triple_assume fun f here => ?_
  obtain ⟨data,six,pos⟩ := And.imp_right (· (not_not.mp sought)) here
  refine triple_bind (triple_pre (fread_spec file footerSize (file.length - footerSize)) (by rintro t rfl; exact ⟨data,pos⟩))
    fun footer => triple_ite (fun _ => gave_up inside_nil) fun whole => triple_ite (fun _ => gave_up inside_nil) fun marks => ?_
  dsimp only
  refine triple_assume fun f here => ?_
  obtain ⟨data,-,bytes⟩ := here
  obtain ⟨start,second,third,size⟩ := footer_of_last six (bytes (not_not.mp whole))
  rw [not_or,not_not,not_not,second,third] at marks
  rw [size,start]
  refine triple_ite (fun _ => gave_up inside_nil) fun far => ?_
  refine triple_bind (triple_pre (seekBack_spec file _) (by rintro t rfl; exact data)) fun ok =>
    triple_ite (fun _ => gave_up inside_nil) fun sought => ?_
  refine triple_bind (triple_get (Q := fun got f => got = f ∧ f.data = file ∧
    (commentSize file + eocdHeaderSize ≤ file.length ∧ f.pos = file.length - (commentSize file + eocdHeaderSize)))
    fun f both => ⟨rfl,both.1,both.2 (not_not.mp sought)⟩) fun got => ?_
  refine triple_assume fun f here => ?_
  obtain ⟨rfl,data,long,pos⟩ := here
  have long : eocdSize file ≤ file.length := long
  have record : got.pos = recordStart file := by
    simp only [pos,eocdHeaderSize,recordStart,eocdSize] at long ⊢
    omega
  have signedLen : got.pos + eocdHeaderSize - 2 = file.length - (commentSize file + 2) := by
    simp only [pos,eocdHeaderSize,eocdSize] at long ⊢
    omega
  rw [signedLen]
  refine triple_bind asked fun _ => triple_ite (fun _ => gave_up inside_nil) fun _ => ?_
  refine triple_bind (triple_pre (fread_spec file _ (recordStart file)) (by rintro t rfl; exact ⟨data,record⟩))
    fun eocd => triple_ite (fun _ => gave_up inside_nil) fun whole => ?_
  have first : Inside file (markerReads eocd 0) := markerReads_inside (by unfold eocdSize; omega)
  have reads : Inside file (markerReads eocd 0 ++ scanReads eocd
      (range' 4 (commentSize file + eocdHeaderSize - 3 - 4))) := by
    intro a member
    rcases mem_append.mp member with here | later
    · exact first a here
    · refine scanReads_inside (fun i listed => ?_) a later
      have := mem_range'_1.mp listed
      simp only [eocdHeaderSize,eocdSize] at this ⊢
      omega
  refine triple_ite (fun _ => gave_up first) fun marked => triple_ite (fun _ => gave_up reads) fun scanned => ?_
  rw [not_not] at whole marked
  refine triple_bind asked fun _ => triple_ite (fun _ => gave_up reads) fun _ => ?_
  refine triple_assume fun f here => ?_
  obtain ⟨data,pos,bytes⟩ := here
  -- the record reaches to the end of the file
  have rest : eocd = file.drop (recordStart file) := by
    rw [bytes whole]
    refine take_of_length_le ?_
    simp only [length_drop,recordStart,eocdHeaderSize,eocdSize] at long ⊢
    omega
  have total : eocd.length = eocdSize file := whole
  have ended : f.pos = file.length := by
    omega
  rw [← bind_assoc]
  refine triple_bind (triple_pre (hashed_signed (by unfold eocdSize at long; omega)) (by rintro t rfl; exact ⟨data,ended⟩))
    fun hashed => triple_pure _ fun _ signed => ⟨reads,fun handed equal => ?_⟩
  obtain ⟨ctx,found,rfl⟩ := Option.map_eq_some_iff.mp equal
  refine ⟨⟨marks,Nat.lt_of_not_le far,long,?_,?_⟩,rest,by dsimp only; rw [total],rfl,(signed ctx found).1,
    (signed ctx found).2⟩
  · rw [rest] at marked
    exact (markerAt_iff file _ 0).mp marked
  intro i low high there
  rw [rest] at scanned
  refine scanned (any_eq_true.mpr ⟨i,mem_range'_1.mpr ⟨low,?_⟩,(markerAt_iff file _ i).mpr there⟩)
  omega

private theorem verifyFile_success {answers : List Bool}
    (success : (verifyFile C room outside keys ⟨file,0⟩ answers).value = some verifySuccess) :
    Reaches file ∧ Accepted C room outside keys (signatureStart file) (file.drop (recordStart file)) (signedBytes file) := by
  rw [verifyFile_handOver] at success
  obtain ⟨⟨handed,reads⟩,returned,finished⟩ := bind_returns success
  rw [finished] at success
  have finished : finish C room outside keys handed = verifySuccess := by simpa [pure_run] using success
  cases handed with
  | none => exact absurd finished (by simp [finish,verifyFailure,verifySuccess])
  | some handed =>
    have good : HandedFor keys file handed := ((handOver_spec ⟨file,0⟩ answers rfl).1 _ returned).2 handed rfl
    refine ⟨good.reaches,?_⟩
    have size : ((file.drop (recordStart file)).length : Int) = eocdSize file := by
      have long := good.reaches.long
      simp only [length_drop,recordStart,eocdSize] at long ⊢
      omega
    simp only [finish,good.eocd,good.pkcs7Der,good.pkcs7DerLen] at finished
    cases found : readPkcs7 (memoryAround (file.drop (recordStart file)) outside) room
        ((eocdSize file : Int) - signatureStart file) (signatureStart file - 6) with
    | none => simp [found,verifyFailure,verifySuccess] at finished
    | some sigDer =>
      simp only [found] at finished
      split at finished
      · rename_i accepted
        obtain ⟨cert,given,accepts⟩ := any_eq_true.mp accepted
        rw [hashFor_signed given good.sha1 good.sha256] at accepts
        obtain ⟨hash,hashes,verifies⟩ := (Option.any_eq_true _ _).mp accepts
        exact ⟨sigDer,by rw [size]; exact found,cert,given,hash,hashes,verifies⟩
      · exact absurd finished (by decide)

/-- A file that verifies: some key accepts the hash of the bytes before the comment and its size, the
    zip reader stops at the record that the verifier used, and what it says of the directory is signed.
    -/
theorem verified_directory_is_signed (C : Mincrypt Rsa P256) (room : Nat → Bool) (outside : Mem)
    (keys : List (Certificate Rsa P256)) (file : Bytes) (answers : List Bool)
    (success : (verifyFile C room outside keys ⟨file, 0⟩ answers).value = some verifySuccess) :
    Accepted C room outside keys (signatureStart file) (file.drop (recordStart file)) (signedBytes file) ∧
    commentSize file + 22 ≤ file.length ∧ findEocd file = some (recordStart file) ∧
    ∀ numEntries cdOffset, locateDirectory file = some (numEntries, cdOffset) →
      numEntries = get2LE (signedBytes file) (recordStart file + ENDSUB) ∧
      cdOffset = get4LE (signedBytes file) (recordStart file + ENDOFF) := by
  obtain ⟨reaches, signed⟩ := verifyFile_success success
  have long : commentSize file + 22 ≤ file.length := reaches.long
  have found : findEocd file = some (recordStart file) := by
    refine scanBack_last reaches.record (by simp only [recordStart, ENDHDR]; omega) fun ptr after below => ?_
    exact last_record reaches.record reaches.scanned after (by simp only [ENDHDR] at below; omega)
  refine ⟨signed, long, found, fun numEntries cdOffset located => ?_⟩
  obtain ⟨entries, offset⟩ := locateDirectory_at found located
  rw [entries, offset]
  have signed {i : Nat} (inside : i < 20) : byteAt (signedBytes file) (recordStart file + i) =
      byteAt file (recordStart file + i) := byteAt_take (by unfold recordStart; omega)
  unfold get2LE get4LE ENDSUB ENDOFF
  simp only [Nat.add_assoc]
  rw [signed (by omega), signed (by omega), signed (by omega), signed (by omega), signed (by omega), signed (by omega)]
  exact ⟨rfl, rfl⟩

end

/-! ## A signed package -/

def beVal (b : Bytes) : Nat := b.foldl (fun n x => n * 256 + x.toNat) 0
/-- A SHA-1 hash, padded for RSA as PKCS#1 v1.5 has it. -/
def padded (hash : Bytes) : Bytes :=
  [0, 1] ++ List.replicate 218 0xff ++ [0, 0x30, 0x21, 0x30, 9, 6, 5, 0x2b, 0x0e, 3, 2, 0x1a, 5, 0, 4, 0x14] ++ hash
/-- RSA with exponent 3 and SHA-1; a key is its modulus. Nothing is signed with another
    hash or an elliptic curve here. -/
def cubeRsa : Mincrypt Nat Nat where
  sha1 := sha1
  sha256 := fun _ => []
  rsaVerify := fun modulus sig hash => beVal sig ^ 3 % modulus = beVal (padded hash)
  dsaSigUnpack := fun _ => none
  p256FromBin := beVal
  p256EcdsaVerify := fun _ _ _ _ _ => false

/-- An element with a short length or one of two octets. -/
def der (tag : UInt8) (value : Bytes) : Bytes :=
  if value.length < 128 then tag :: UInt8.ofNat value.length :: value
  else tag :: 0x82 :: UInt8.ofNat (value.length / 256) :: UInt8.ofNat (value.length % 256) :: value
/-- A PKCS#7 block around a signature, with empty elements before it. -/
def pkcs7 (signature : Bytes) : Bytes :=
  let signerInfo := der 0x30 ([2, 0, 0x30, 0, 0x30, 0, 0x30, 0] ++ der 4 signature)
  der 0x30 ([6, 0] ++ der 0xa0 (der 0x30 ([2, 0, 0x31, 0, 0x30, 0] ++ der 0x31 signerInfo)))

/-- A package without files, up to the size of its comment. -/
def packageStart : Bytes :=
  [0x50, 0x4b, 3, 4] ++ [0x50, 0x4b, 5, 6, 0, 0, 0, 0, 1, 0, 1, 0, 0, 0, 0, 0, 0, 0, 0, 0]
def cubeRoot : Bytes := List.replicate 170 0 ++ [4] ++ List.replicate 85 0
/-- A modulus for which the padded hash of the package is the cube 2 ^ 2046. -/
def packageKey : Certificate Nat Nat := ⟨20, .rsa (2 ^ 2046 - beVal (padded (sha1 packageStart)))⟩
def package : Bytes :=
  let block := pkcs7 cubeRoot
  packageStart ++ leBytes 2 (block.length + 6) ++ block ++ leBytes 2 (block.length + 6) ++ [0xff, 0xff] ++
    leBytes 2 (block.length + 6)

theorem verified_directory_is_signed_in_package :
    let answers := List.replicate 12 true
    (verifyFile cubeRsa (fun _ => true) (fun _ => 0) [packageKey] ⟨package, 0⟩ answers).value = some verifySuccess ∧
      locateDirectory package = some (1, 0) ∧ findEocd package = some (recordStart package) ∧
      0 = get4LE (signedBytes package) (recordStart package + ENDOFF) := by
  have success : (verifyFile cubeRsa (fun _ => true) (fun _ => 0) [packageKey] ⟨package, 0⟩ (List.replicate 12 true)).value =
      some verifySuccess := by decide +kernel
  have located : locateDirectory package = some (1, 0) := by decide +kernel
  obtain ⟨-, -, found, signed⟩ := verified_directory_is_signed cubeRsa _ _ [packageKey] package _ success
  exact ⟨success, located, found, (signed 1 0 located).2⟩

end Recovery.SignedZip
