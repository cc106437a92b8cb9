import Recovery.Asn1Bounds
import Mathlib.Data.Nat.Digits.Lemmas

/-!
What `read_pkcs7` finds in a well-formed block.
-/
namespace Recovery.Pkcs7
open Memory Asn1 Asn1Bounds List

/-! ## DER -/

def octets (n : Nat) : Bytes := ((Nat.digits 256 n).map UInt8.ofNat).reverse
/-- A length, in the short form if it fits and in as few octets as it takes otherwise. -/
def encodeLength (n : Nat) : Bytes :=
  if n < 0x80 then [UInt8.ofNat n] else UInt8.ofNat (0x80 + (octets n).length) :: octets n
def element (tag : UInt8) (contents : Bytes) : Bytes := tag :: (encodeLength contents.length ++ contents)

def asInteger : Bytes → Bytes := element 0x02
def asOctetString : Bytes → Bytes := element 0x04
def asOid : Bytes → Bytes := element 0x06
def asSequence : Bytes → Bytes := element 0x30
def asSet : Bytes → Bytes := element 0x31
/-- An element with a tag of the context, from 0 to 30. -/
def asTagged (tag : Fin 31) : Bytes → Bytes := element (UInt8.ofNat (0xA0 + tag))

/-- A SignerInfo without signed attributes; the fields are the contents of the elements. -/
structure SignerInfo where
  version : Bytes
  sid : Bytes
  digestAlgorithm : Bytes
  signatureAlgorithm : Bytes
  signature : Bytes
  unsignedAttrs : Option Bytes
  deriving DecidableEq, Repr

/-- A SignedData with the elements that are optional in it, a first SignerInfo and the
    contents of any others. -/
structure SignedData where
  version : Bytes
  digestAlgorithms : Bytes
  encapContentInfo : Bytes
  optional : List (Fin 31 × Bytes)
  signerInfo : SignerInfo
  otherSignerInfos : List Bytes
  deriving DecidableEq, Repr

structure ContentInfo where
  contentType : Bytes
  content : SignedData
  deriving DecidableEq, Repr

def SignerInfo.contents (info : SignerInfo) : Bytes :=
  asInteger info.version ++ (asSequence info.sid ++ (asSequence info.digestAlgorithm ++
    (asSequence info.signatureAlgorithm ++
      (asOctetString info.signature ++ (info.unsignedAttrs.map (asTagged 1)).getD []))))
def SignedData.options (data : SignedData) : Bytes := data.optional.flatMap fun e => asTagged e.1 e.2
def SignedData.signerInfos (data : SignedData) : Bytes :=
  asSequence data.signerInfo.contents ++ data.otherSignerInfos.flatMap asSequence
def SignedData.contents (data : SignedData) : Bytes :=
  asInteger data.version ++ (asSet data.digestAlgorithms ++ (asSequence data.encapContentInfo ++
    (data.options ++ asSet data.signerInfos)))
def ContentInfo.contents (info : ContentInfo) : Bytes :=
  asOid info.contentType ++ asTagged 0 (asSequence info.content.contents)
def ContentInfo.encode (info : ContentInfo) : Bytes := asSequence info.contents

/-! ## Bytes at an address -/

section
variable {α β : Type} {mem : Mem} {ctx : Context} {bytes rest : Bytes}

def Over (mem : Mem) (ctx : Context) (bytes : Bytes) : Prop := copy mem ctx.p ctx.length = bytes

private theorem copy_add (p : Int) (m n : Nat) : copy mem p (m + n) = copy mem p m ++ copy mem (p + m) n := by
  simp only [copy,range_add,map_append,map_map]
  congr 1
  refine map_congr_left fun i _ => ?_
  simp [add_assoc]
@[simp] theorem copy_length (p : Int) (n : Nat) : (copy mem p n).length = n := by simp [copy]
theorem over_length (covered : Over mem ctx bytes) : ctx.length = bytes.length := by
  rw [← covered,copy_length]
theorem over_append {front back : Bytes} (covered : Over mem ctx (front ++ back)) :
    copy mem ctx.p front.length = front ∧ Over mem (ctx.advance front.length) back := by
  have total := over_length covered
  rw [length_append] at total
  unfold Over at covered ⊢
  rw [total,copy_add] at covered
  have parts := append_inj covered (by simp)
  refine ⟨parts.1,?_⟩
  rw [show (ctx.advance front.length).length = back.length by simp [Context.advance,total]]
  exact parts.2

theorem over_cons {b : UInt8} (covered : Over mem ctx (b :: rest)) :
    ctx.length ≠ 0 ∧ mem ctx.p = b ∧ Over mem (ctx.advance 1) rest := by
  have total := over_length covered
  rw [length_cons] at total
  have parts : Over mem ctx ([b] ++ rest) := covered
  obtain ⟨first,behind⟩ := over_append parts
  exact ⟨by omega,by simpa [copy] using first,behind⟩

/-! ## Decoding -/

/-- Decoding that takes the front off the bytes of a context. -/
def Takes (mem : Mem) (call : Decoder α) (bytes : Bytes) (Q : α → Prop) (rest : Bytes) : Prop :=
  ∀ ctx reads, Over mem ctx bytes →
    Q ((call.run ctx).run reads).1.1 ∧ Over mem ((call.run ctx).run reads).1.2 rest

variable {Q : α → Prop} {inner : Bytes} {n : Nat}

theorem takes_pure {a : α} (post : Q a) : Takes mem (pure a) bytes Q bytes :=
  fun _ _ covered => ⟨post,covered⟩
theorem takes_bind {R : β → Prop} {call : Decoder α} {k : α → Decoder β} {middle : Bytes}
    (first : Takes mem call bytes Q middle) (second : ∀ a, Q a → Takes mem (k a) middle R rest) :
    Takes mem (call >>= k) bytes R rest := by
  intro ctx reads covered
  obtain ⟨post,covered'⟩ := first ctx reads covered
  exact second _ post _ _ covered'
theorem takes_get {R : β → Prop} {k : Context → Decoder β}
    (behind : ∀ ctx, Over mem ctx bytes → Takes mem (k ctx) bytes R rest) : Takes mem (get >>= k) bytes R rest :=
  fun ctx reads covered => behind ctx covered ctx reads covered

theorem takes_getByte (b : UInt8) (rest : Bytes) : Takes mem (getByte mem) (b :: rest) (· = some b.toNat) rest := by
  refine takes_get fun ctx covered => ?_
  obtain ⟨some,byte,behind⟩ := over_cons covered
  rw [if_neg some]
  intro ctx' reads _
  refine ⟨?_,behind⟩
  change Option.some (mem ctx.p).toNat = Option.some b.toNat
  rw [byte]
theorem takes_peekByte (b : UInt8) (rest : Bytes) :
    Takes mem (peekByte mem) (b :: rest) (· = some b.toNat) (b :: rest) := by
  refine takes_get fun ctx covered => ?_
  obtain ⟨some,byte,-⟩ := over_cons covered
  rw [if_neg some]
  intro ctx' reads covered'
  refine ⟨?_,covered'⟩
  change Option.some (mem ctx.p).toNat = Option.some b.toNat
  rw [byte]
theorem takes_skipBytes (front rest : Bytes) (count : front.length = n) :
    Takes mem (skipBytes n) (front ++ rest) (· = true) rest := by
  refine takes_get fun ctx covered => ?_
  have total := over_length covered
  rw [length_append] at total
  rw [if_neg (by omega)]
  intro ctx' reads _
  subst count
  exact ⟨rfl,(over_append covered).2⟩

/-- The number that octets stand for, behind those that are read already. -/
def valueOf (length : Nat) (bytes : Bytes) : Nat := bytes.foldl (fun length byte => (length <<< 8) + byte.toNat) length

private theorem valueOf_octets (n : Nat) : valueOf 0 (octets n) = n := by
  have digit : ∀ digits : List Nat, (∀ d ∈ digits, d < 256) →
      (digits.map UInt8.ofNat).foldr (fun byte length => (length <<< 8) + byte.toNat) 0 = Nat.ofDigits 256 digits := by
    intro digits small
    induction digits with
    | nil => rfl
    | cons d digits ih =>
      rw [map_cons,foldr_cons,ih fun e member => small e (mem_cons_of_mem _ member),Nat.ofDigits_cons,
        UInt8.toNat_ofNat_of_lt' (small d mem_cons_self),Nat.shiftLeft_eq]
      omega
  rw [valueOf,octets,foldl_reverse,digit _ fun d member => Nat.digits_lt_base (by decide) member,
    Nat.ofDigits_digits]
private theorem takes_lengthOctets (bytes rest : Bytes) (length : Nat) :
    Takes mem (lengthOctets mem bytes.length length) (bytes ++ rest) (· = some (valueOf length bytes)) rest := by
  induction bytes generalizing length with
  | nil => exact takes_pure rfl
  | cons b bytes ih =>
    refine takes_bind (takes_getByte b (bytes ++ rest)) fun byte same => ?_
    subst same
    exact ih _
private theorem octets_length (small : n < 2 ^ 56) : (octets n).length < 8 := by
  have few := (Nat.digits_length_le_iff (b := 256) (k := 7) (by decide) n).mpr (by simpa using small)
  simp only [octets,length_reverse,length_map]
  omega

private theorem short_form : ∀ n < 0x80, n &&& 0x80 = 0 := by decide
private theorem long_form : ∀ n < 8, (0x80 + n) &&& 0x80 ≠ 0 ∧ (0x80 + n) &&& kMaskTag = n := by decide
theorem takes_decodeLength (small : n < 2 ^ 56) (rest : Bytes) :
    Takes mem (decodeLength mem) (encodeLength n ++ rest) (· = some n) rest := by
  unfold encodeLength
  split
  · rename_i short
    refine takes_bind (takes_getByte _ rest) fun byte same => ?_
    subst same
    rw [UInt8.toNat_ofNat_of_lt' (show n < 256 by omega)]
    dsimp only
    rw [if_pos (short_form n short)]
    exact takes_pure rfl
  · have few := octets_length small
    refine takes_bind (takes_getByte _ (octets n ++ rest)) fun byte same => ?_
    subst same
    rw [UInt8.toNat_ofNat_of_lt' (show 0x80 + (octets n).length < 256 by omega)]
    dsimp only
    obtain ⟨marked,count⟩ := long_form _ few
    rw [if_neg marked,count,if_neg (by omega)]
    have takes : Takes mem (lengthOctets mem (octets n).length 0) (octets n ++ rest)
        (· = some (valueOf 0 (octets n))) rest :=
      takes_lengthOctets (octets n) rest 0
    rwa [valueOf_octets] at takes

/-! ## Elements -/

theorem contents_short (tag : UInt8) (inner : Bytes) : inner.length < (element tag inner).length := by
  simp only [element,length_cons,length_append]
  omega

/-- A context for the contents of an element. -/
def Enters (mem : Mem) (inner : Bytes) (child : Option Context) : Prop := ∃ ctx, child = some ctx ∧ Over mem ctx inner

theorem takes_contents (appType : Nat) (small : inner.length < 2 ^ 56) (rest : Bytes) :
    Takes mem (contents mem appType) (encodeLength inner.length ++ (inner ++ rest)) (Enters mem inner)
      (inner ++ rest) := by
  refine takes_bind (takes_decodeLength small _) fun length same => ?_
  subst same
  refine takes_get fun ctx covered => ?_
  have total := over_length covered
  rw [length_append] at total
  rw [if_neg (by omega)]
  exact takes_pure ⟨_,rfl,(over_append covered).1⟩

theorem tag_constructed : ∀ tag : Fin 31,
    (UInt8.ofNat (0xA0 + tag)).toNat &&& kMaskConstructed = kTagConstructed := by decide
private theorem takes_constructedGet (tag : Fin 31) (small : inner.length < 2 ^ 56) (rest : Bytes) :
    Takes mem (asn1ConstructedGet mem) (asTagged tag inner ++ rest) (Enters mem inner) (inner ++ rest) := by
  rw [asTagged,element,cons_append,append_assoc]
  refine takes_bind (takes_getByte _ _) fun byte same => ?_
  subst same
  dsimp only
  rw [if_neg (not_not.mpr (tag_constructed tag))]
  exact takes_contents _ small rest
theorem takes_sequenceGet (small : inner.length < 2 ^ 56) (rest : Bytes) :
    Takes mem (asn1SequenceGet mem) (asSequence inner ++ rest) (Enters mem inner) (inner ++ rest) := by
  rw [asSequence,element,cons_append,append_assoc]
  refine takes_bind (takes_getByte _ _) fun byte same => ?_
  subst same
  exact takes_contents 0 small rest
private theorem takes_setGet (small : inner.length < 2 ^ 56) (rest : Bytes) :
    Takes mem (asn1SetGet mem) (asSet inner ++ rest) (Enters mem inner) (inner ++ rest) := by
  rw [asSet,element,cons_append,append_assoc]
  refine takes_bind (takes_getByte _ _) fun byte same => ?_
  subst same
  exact takes_contents 0 small rest
theorem takes_sequenceNext (tag : UInt8) (small : inner.length < 2 ^ 56) (rest : Bytes) :
    Takes mem (asn1SequenceNext mem) (element tag inner ++ rest) (· = true) rest := by
  rw [element,cons_append,append_assoc]
  refine takes_bind (takes_getByte _ _) fun byte same => ?_
  subst same
  refine takes_bind (takes_decodeLength small _) fun length same => ?_
  subst same
  exact takes_skipBytes inner rest rfl
theorem takes_octetStringGet (some : inner ≠ []) (small : inner.length < 2 ^ 56) (rest : Bytes) :
    Takes mem (asn1OctetStringGet mem) (asOctetString inner ++ rest)
      (fun value => ∃ p, value = Option.some (p, inner.length) ∧ copy mem p inner.length = inner) (inner ++ rest) := by
  rw [asOctetString,element,cons_append,append_assoc]
  refine takes_bind (takes_getByte _ _) fun byte same => ?_
  subst same
  refine takes_bind (takes_decodeLength small _) fun length same => ?_
  subst same
  refine takes_get fun ctx covered => ?_
  have total := over_length covered
  have count := length_pos_iff.mpr some
  rw [length_append] at total
  rw [if_neg (by omega)]
  exact takes_pure ⟨_,rfl,(over_append covered).1⟩

theorem takes_skipAllLoop {b : UInt8} (other : b.toNat &&& kMaskConstructed ≠ kTagConstructed) (rest : Bytes)
    (optional : List (Fin 31 × Bytes)) (small : ∀ e ∈ optional, e.2.length < 2 ^ 56) {fuel : Nat}
    (enough : optional.length < fuel) :
    Takes mem (skipAllLoop mem fuel) (optional.flatMap (fun e => asTagged e.1 e.2) ++ b :: rest) (· = true)
      (b :: rest) := by
  induction optional generalizing fuel with
  | nil =>
    obtain ⟨fuel,rfl⟩ : ∃ n, fuel = n + 1 := ⟨fuel - 1,by simp at enough; omega⟩
    refine takes_bind (takes_peekByte b rest) fun byte same => ?_
    subst same
    dsimp only
    rw [if_neg other]
    exact takes_pure rfl
  | cons e optional ih =>
    obtain ⟨fuel,rfl⟩ : ∃ n, fuel = n + 1 := ⟨fuel - 1,by simp at enough; omega⟩
    rw [flatMap_cons,append_assoc,asTagged,element,cons_append,append_assoc]
    refine takes_bind (takes_peekByte _ _) fun byte same => ?_
    subst same
    dsimp only
    rw [if_pos (tag_constructed e.1)]
    refine takes_bind (takes_skipBytes [_] _ rfl) fun _ _ => ?_
    refine takes_bind (takes_decodeLength (small e mem_cons_self) _) fun length same => ?_
    subst same
    refine takes_bind (takes_skipBytes e.2 _ rfl) fun skipped same => ?_
    subst same
    exact ih (fun e' member => small e' (mem_cons_of_mem _ member)) (by simpa using enough)
theorem takes_constructedSkipAll {b : UInt8} (other : b.toNat &&& kMaskConstructed ≠ kTagConstructed) (rest : Bytes)
    (optional : List (Fin 31 × Bytes)) (small : ∀ e ∈ optional, e.2.length < 2 ^ 56) :
    Takes mem (asn1ConstructedSkipAll mem) (optional.flatMap (fun e => asTagged e.1 e.2) ++ b :: rest) (· = true)
      (b :: rest) := by
  refine takes_get fun ctx covered => takes_skipAllLoop other rest optional small ?_
  -- an element has at least its tag
  have count : optional.length ≤ (optional.flatMap fun e => asTagged e.1 e.2).length := by
    rw [length_flatMap,← length_map fun e : Fin 31 × Bytes => (asTagged e.1 e.2).length]
    refine length_le_sum_of_one_le _ fun n member => ?_
    obtain ⟨e,-,rfl⟩ := mem_map.mp member
    exact Nat.succ_le_of_lt (Nat.zero_lt_succ _)
  have total := over_length covered
  rw [length_append] at total
  omega

/-! ## `read_pkcs7` -/

/-- A search that finds something. -/
def Finds (search : Search α) (Q : α → Prop) : Prop := ∀ reads, ∃ a, (search.run.run reads).1 = some a ∧ Q a
/-- A search with a result. -/
def Ends (search : Search α) (result : Option α) : Prop := ∀ reads, (search.run.run reads).1 = result

theorem ends_bind {search : Search α} {k : α → Search β} {result : Option β} (first : Finds search Q)
    (second : ∀ a, Q a → Ends (k a) result) : Ends (search >>= k) result := by
  intro reads
  obtain ⟨a,found,post⟩ := first reads
  rw [search_step,found]
  exact second a post _
theorem finds_within {call : Decoder (Option α)}
    (takes : Takes mem call bytes (fun result => ∃ a, result = some a ∧ Q a) rest) (covered : Over mem ctx bytes) :
    Finds (within call ctx) Q :=
  fun reads => (takes ctx reads covered).1
theorem finds_after {call : Decoder Bool}
    (takes : Takes mem call bytes (· = true) rest) (covered : Over mem ctx bytes) :
    Finds (after call ctx) (Over mem · rest) := by
  intro reads
  obtain ⟨done,behind⟩ := takes ctx reads covered
  refine ⟨_,?_,behind⟩
  rw [after_step,done,if_pos rfl]

/-! The length of the outermost contents is the longest one. -/

theorem ContentInfo.short {info : ContentInfo} (small : info.contents.length < n) :
    info.contentType.length < n ∧ (asSequence info.content.contents).length < n ∧ info.content.contents.length < n := by
  have first : info.contentType.length < (asOid info.contentType).length := contents_short _ _
  have second : (asSequence info.content.contents).length < (asTagged 0 (asSequence info.content.contents)).length :=
    contents_short _ _
  have third : info.content.contents.length < (asSequence info.content.contents).length := contents_short _ _
  simp only [ContentInfo.contents,length_append] at small
  omega
theorem SignedData.short {data : SignedData} (small : data.contents.length < n) :
    data.version.length < n ∧ data.digestAlgorithms.length < n ∧ data.encapContentInfo.length < n ∧
      (∀ e ∈ data.optional, e.2.length < n) ∧ data.signerInfos.length < n ∧ data.signerInfo.contents.length < n := by
  have version : data.version.length < (asInteger data.version).length := contents_short _ _
  have algorithms : data.digestAlgorithms.length < (asSet data.digestAlgorithms).length := contents_short _ _
  have content : data.encapContentInfo.length < (asSequence data.encapContentInfo).length := contents_short _ _
  have infos : data.signerInfos.length < (asSet data.signerInfos).length := contents_short _ _
  have signer : data.signerInfo.contents.length < (asSequence data.signerInfo.contents).length := contents_short _ _
  have first : (asSequence data.signerInfo.contents).length ≤ data.signerInfos.length := by
    rw [SignedData.signerInfos,length_append]
    omega
  simp only [SignedData.contents,length_append] at small
  refine ⟨by omega,by omega,by omega,fun e member => ?_,by omega,by omega⟩
  have one : e.2.length < (asTagged e.1 e.2).length := contents_short _ _
  have all : (asTagged e.1 e.2).length ≤ data.options.length := by
    exact (sublist_flatten_of_mem (mem_map_of_mem (f := fun e => asTagged e.1 e.2) member)).length_le
  omega
theorem SignerInfo.short {info : SignerInfo} (small : info.contents.length < n) :
    info.version.length < n ∧ info.sid.length < n ∧ info.digestAlgorithm.length < n ∧
      info.signatureAlgorithm.length < n ∧ info.signature.length < n := by
  have version : info.version.length < (asInteger info.version).length := contents_short _ _
  have sid : info.sid.length < (asSequence info.sid).length := contents_short _ _
  have digest : info.digestAlgorithm.length < (asSequence info.digestAlgorithm).length := contents_short _ _
  have algorithm : info.signatureAlgorithm.length < (asSequence info.signatureAlgorithm).length := contents_short _ _
  have signature : info.signature.length < (asOctetString info.signature).length := contents_short _ _
  simp only [SignerInfo.contents,length_append] at small
  omega

theorem ends_signer (room : Nat → Bool) {info : SignerInfo} (signed : info.signature ≠ [])
    (small : info.contents.length < 2 ^ 56) {sigSeq : Context} (covered : Over mem sigSeq info.contents) :
    Ends (do
      let sigSeq ← after (asn1SequenceNext mem) sigSeq
      let sigSeq ← after (asn1SequenceNext mem) sigSeq
      let sigSeq ← after (asn1SequenceNext mem) sigSeq
      let sigSeq ← after (asn1SequenceNext mem) sigSeq
      let (sigDerPtr, sigDerLength) ← within (asn1OctetStringGet mem) sigSeq
      if room sigDerLength then do
        modifyThe (List Int) (copied sigDerPtr sigDerLength ++ ·)
        pure (copy mem sigDerPtr sigDerLength)
      else failure : Search Bytes) (if room info.signature.length then some info.signature else none) := by
  obtain ⟨version,sid,digest,algorithm,signature⟩ := SignerInfo.short small
  refine ends_bind (finds_after (takes_sequenceNext 0x02 version _) covered) fun ctx covered => ?_
  refine ends_bind (finds_after (takes_sequenceNext 0x30 sid _) covered) fun ctx covered => ?_
  refine ends_bind (finds_after (takes_sequenceNext 0x30 digest _) covered) fun ctx covered => ?_
  refine ends_bind (finds_after (takes_sequenceNext 0x30 algorithm _) covered) fun ctx covered => ?_
  refine ends_bind (Q := fun value => value.2 = info.signature.length ∧ copy mem value.1 value.2 = info.signature)
    ?_ ?_
  · intro reads
    obtain ⟨⟨p,value,bytes⟩,-⟩ := takes_octetStringGet signed signature _ ctx reads covered
    exact ⟨_,value,rfl,bytes⟩
  rintro ⟨p,n⟩ ⟨rfl,bytes⟩ reads
  dsimp only at bytes ⊢
  split
  · change some (copy mem p info.signature.length) = _
    rw [bytes]
  · rfl

theorem ends_signatureIn (room : Nat → Bool) {info : ContentInfo} (signed : info.content.signerInfo.signature ≠ [])
    (small : info.contents.length < 2 ^ 56) {pkcs7Seq : Context} (covered : Over mem pkcs7Seq info.contents) :
    Ends (signatureIn mem room pkcs7Seq)
      (if room info.content.signerInfo.signature.length then some info.content.signerInfo.signature else none) := by
  obtain ⟨contentType,content,contents⟩ := ContentInfo.short small
  obtain ⟨version,algorithms,encap,optional,signers,signer⟩ := SignedData.short contents
  refine ends_bind (finds_after (takes_sequenceNext 0x06 contentType _) covered) fun ctx covered => ?_
  rw [← append_nil (asTagged 0 _)] at covered
  refine ends_bind (finds_within (takes_constructedGet 0 content _) covered) fun ctx covered => ?_
  rw [← append_nil (asSequence _)] at covered
  refine ends_bind (finds_within (takes_sequenceGet contents _) covered) fun ctx covered => ?_
  refine ends_bind (finds_after (takes_sequenceNext 0x02 version _) covered) fun ctx covered => ?_
  refine ends_bind (finds_after (takes_sequenceNext 0x31 algorithms _) covered) fun ctx covered => ?_
  refine ends_bind (finds_after (takes_sequenceNext 0x30 encap _) covered) fun ctx covered => ?_
  -- the tag of the set is the first one that is not skipped
  refine ends_bind (finds_after (takes_constructedSkipAll (b := 0x31) (by decide) _ _ optional) covered)
    fun ctx covered => ?_
  change Over mem ctx (asSet info.content.signerInfos) at covered
  rw [← append_nil (asSet _)] at covered
  refine ends_bind (finds_within (takes_setGet signers _) covered) fun ctx covered => ?_
  refine ends_bind (finds_within (takes_sequenceGet signer _) covered) fun ctx covered => ?_
  exact ends_signer room signed signer covered

/-- `read_pkcs7` on the encoding of a ContentInfo returns the signature of its first SignerInfo,
    as long as there is memory for it. -/
theorem signature_read (mem : Mem) (room : Nat → Bool) (p : Int) (info : ContentInfo)
    (loaded : copy mem p info.encode.length = info.encode) (signed : info.content.signerInfo.signature ≠ [])
    (small : info.contents.length < 2 ^ 56) : readPkcs7 mem room p info.encode.length =
      if room info.content.signerInfo.signature.length then some info.content.signerInfo.signature else none := by
  have covered : Over mem (asn1ContextNew p info.encode.length) (asSequence info.contents ++ []) := by
    rw [append_nil]
    exact loaded
  exact ends_bind (finds_within (takes_sequenceGet small []) covered)
    (fun ctx inner => ends_signatureIn room signed small inner) []

end

def threeByteBlock : ContentInfo where
  contentType := [0x2A, 0x86]
  content :=
    { version := [1]
      digestAlgorithms := []
      encapContentInfo := [6, 1, 9]
      optional := [(0, [1, 2, 3]), (1, [])]
      signerInfo :=
        { version := [1]
          sid := [0]
          digestAlgorithm := []
          signatureAlgorithm := [5, 0]
          signature := [7, 8, 9]
          unsignedAttrs := none }
      otherSignerInfos := [[4, 4]] }

theorem threeByteBlock_read : readPkcs7 (fun a => threeByteBlock.encode.getD a.toNat 0) (fun _ => true) 0
    threeByteBlock.encode.length = some [7, 8, 9] :=
  signature_read (fun a => threeByteBlock.encode.getD a.toNat 0) (fun _ => true) 0 threeByteBlock (by decide)
    (by decide) (by decide)

end Recovery.Pkcs7
