import Recovery.Asn1
import Mathlib.Order.Basic

/-!
The decoder stays in the block that it is given: contexts and values are parts of the
block, and so is every address that is read.
-/
namespace Recovery.Asn1Bounds
open Memory Asn1 Option

variable {α β : Type} {mem : Mem} {lo hi : Int}

def Part (lo hi : Int) (ctx : Context) : Prop := lo ≤ ctx.p ∧ ctx.p + ctx.length ≤ hi
def Noted (lo hi : Int) (reads : List Int) : Prop := ∀ a ∈ reads, lo ≤ a ∧ a < hi

/-- Decoding that stays in a block and forgets no address. -/
def Stays (lo hi : Int) (call : Decoder α) (Q : α → Prop) : Prop := ∀ ctx reads, Part lo hi ctx → Noted lo hi reads →
  Part lo hi ((call.run ctx).run reads).1.2 ∧ Noted lo hi ((call.run ctx).run reads).2 ∧
    (∀ a ∈ reads, a ∈ ((call.run ctx).run reads).2) ∧ Q ((call.run ctx).run reads).1.1

variable {Q : α → Prop} {R : β → Prop}

theorem stays_pure {a : α} (post : Q a) : Stays lo hi (pure a) Q :=
  fun _ _ part noted => ⟨part,noted,fun _ known => known,post⟩
theorem stays_bind {call : Decoder α} {k : α → Decoder β} (first : Stays lo hi call Q)
    (second : ∀ a, Q a → Stays lo hi (k a) R) : Stays lo hi (call >>= k) R := by
  intro ctx reads part noted
  obtain ⟨part',noted',kept,post⟩ := first ctx reads part noted
  obtain ⟨part'',noted'',kept',post'⟩ := second _ post _ _ part' noted'
  exact ⟨part'',noted'',fun a known => kept' a (kept a known),post'⟩
theorem stays_get {k : Context → Decoder β} (rest : ∀ ctx, Part lo hi ctx → Stays lo hi (k ctx) R) :
    Stays lo hi (get >>= k) R :=
  fun ctx reads part noted => rest ctx part ctx reads part noted
theorem stays_set {ctx : Context} (part : Part lo hi ctx) : Stays lo hi (set ctx) fun _ => True :=
  fun _ _ _ noted => ⟨part,noted,fun _ known => known,trivial⟩
theorem stays_load {a : Int} (low : lo ≤ a) (high : a < hi) : Stays lo hi (load mem a) fun _ => True := by
  intro ctx reads part noted
  refine ⟨part,fun b member => ?_,fun b known => List.mem_cons_of_mem _ known,trivial⟩
  rcases List.mem_cons.mp member with rfl | before
  · exact ⟨low,high⟩
  · exact noted b before
private theorem stays_weaken {R : α → Prop} {call : Decoder α} (stays : Stays lo hi call Q) (weaker : ∀ a, Q a → R a) :
    Stays lo hi call R := by
  intro ctx reads part noted
  obtain ⟨part',noted',kept,post⟩ := stays ctx reads part noted
  exact ⟨part',noted',kept,weaker _ post⟩

/-! ## Bytes and lengths -/

theorem part_advance {ctx : Context} {n : Nat} (part : Part lo hi ctx) (inside : n ≤ ctx.length) :
    Part lo hi (ctx.advance n) := by
  obtain ⟨low,high⟩ := part
  refine ⟨?_,?_⟩ <;> simp only [Context.advance] <;> omega

private theorem stays_peekByte : Stays lo hi (peekByte mem) fun _ => True := by
  refine stays_get fun ctx part => ?_
  split
  · exact stays_pure trivial
  · obtain ⟨low,high⟩ := part
    exact stays_bind (stays_load low (by omega)) fun _ _ => stays_pure trivial
theorem stays_getByte : Stays lo hi (getByte mem) fun _ => True := by
  refine stays_get fun ctx part => ?_
  split
  · exact stays_pure trivial
  · refine stays_bind (stays_load part.1 ?_) fun _ _ => stays_bind (stays_set (part_advance part (by omega))) fun _ _ =>
      stays_pure trivial
    have := part.2
    omega
theorem stays_skipBytes (n : Nat) : Stays lo hi (skipBytes n) fun _ => True := by
  refine stays_get fun ctx part => ?_
  split
  · exact stays_pure trivial
  · exact stays_bind (stays_set (part_advance part (by omega))) fun _ _ => stays_pure trivial

private theorem stays_lengthOctets (n length : Nat) : Stays lo hi (lengthOctets mem n length) fun _ => True := by
  induction n generalizing length with
  | zero => exact stays_pure trivial
  | succ n ih =>
    refine stays_bind stays_getByte fun byte _ => ?_
    cases byte with
    | none => exact stays_pure trivial
    | some byte => exact ih _
theorem stays_decodeLength : Stays lo hi (decodeLength mem) fun _ => True := by
  refine stays_bind stays_getByte fun octets _ => ?_
  cases octets with
  | none => exact stays_pure trivial
  | some octets =>
    dsimp only
    split
    · exact stays_pure trivial
    · split
      · exact stays_pure trivial
      · exact stays_lengthOctets _ _

/-! ## Elements -/

/-- A context that is returned is inside the block too. -/
def PartOf (lo hi : Int) (result : Option Context) : Prop := ∀ ctx, result = some ctx → Part lo hi ctx

theorem stays_contents (appType : Nat) : Stays lo hi (contents mem appType) (PartOf lo hi) := by
  refine stays_bind stays_decodeLength fun length _ => ?_
  cases length with
  | none => exact stays_pure fun _ equal => by cases equal
  | some length =>
    refine stays_get fun ctx part => ?_
    split
    · exact stays_pure fun _ equal => by cases equal
    · refine stays_pure fun inner equal => ?_
      obtain rfl := some.inj equal
      obtain ⟨low,high⟩ := part
      exact ⟨low,by dsimp only; omega⟩
theorem stays_constructedGet : Stays lo hi (asn1ConstructedGet mem) (PartOf lo hi) := by
  refine stays_bind stays_getByte fun type _ => ?_
  cases type with
  | none => exact stays_pure fun _ equal => by cases equal
  | some type =>
    dsimp only
    split
    · exact stays_pure fun _ equal => by cases equal
    · exact stays_contents _
theorem stays_tagged (mem : Mem) (tag : Nat) (byte : Option Nat) :
    Stays lo hi (if maskedTag byte ≠ tag then pure none else contents mem 0) (PartOf lo hi) := by
  split
  · exact stays_pure fun _ equal => by cases equal
  · exact stays_contents _
theorem stays_sequenceGet : Stays lo hi (asn1SequenceGet mem) (PartOf lo hi) :=
  stays_bind stays_getByte fun byte _ => stays_tagged mem kTagSequence byte
theorem stays_setGet : Stays lo hi (asn1SetGet mem) (PartOf lo hi) :=
  stays_bind stays_getByte fun byte _ => stays_tagged mem kTagSet byte
theorem stays_sequenceNext : Stays lo hi (asn1SequenceNext mem) fun _ => True := by
  refine stays_bind stays_getByte fun byte _ => ?_
  cases byte with
  | none => exact stays_pure trivial
  | some byte =>
    refine stays_bind stays_decodeLength fun length _ => ?_
    cases length with
    | none => exact stays_pure trivial
    | some length => exact stays_skipBytes length
private theorem stays_skipAllLoop (fuel : Nat) : Stays lo hi (skipAllLoop mem fuel) fun _ => True := by
  induction fuel with
  | zero => exact stays_pure trivial
  | succ fuel ih =>
    refine stays_bind stays_peekByte fun byte _ => ?_
    cases byte with
    | none => exact stays_pure trivial
    | some byte =>
      dsimp only
      split
      · refine stays_bind (stays_skipBytes 1) fun _ _ => stays_bind stays_decodeLength fun length _ => ?_
        cases length with
        | none => exact stays_pure trivial
        | some length =>
          refine stays_bind (stays_skipBytes length) fun skipped _ => ?_
          split
          · exact ih
          · exact stays_pure trivial
      · exact stays_pure trivial
theorem stays_constructedSkipAll : Stays lo hi (asn1ConstructedSkipAll mem) fun _ => True :=
  stays_get fun _ _ => stays_skipAllLoop _
theorem stays_primitive (tag : Nat) : Stays lo hi (primitive mem tag)
    fun result => ∀ p n, result = some (p, n) → lo ≤ p ∧ p + n ≤ hi := by
  refine stays_bind stays_getByte fun byte _ => ?_
  split
  · exact stays_pure fun _ _ equal => by cases equal
  refine stays_bind stays_decodeLength fun length _ => ?_
  cases length with
  | none => exact stays_pure fun _ _ equal => by cases equal
  | some length =>
    refine stays_get fun ctx part => ?_
    split
    · exact stays_pure fun _ _ equal => by cases equal
    · refine stays_pure fun p n equal => ?_
      obtain ⟨rfl,rfl⟩ := Prod.mk.inj (some.inj equal)
      obtain ⟨low,high⟩ := part
      exact ⟨low,by omega⟩

/-! ## `read_pkcs7` -/

/-- A search that stays in a block and forgets no address. -/
def Searches (lo hi : Int) (search : Search α) (Q : α → Prop) : Prop := ∀ reads, Noted lo hi reads →
  Noted lo hi (search.run.run reads).2 ∧ (∀ a ∈ reads, a ∈ (search.run.run reads).2) ∧
    ∀ a, (search.run.run reads).1 = some a → Q a

theorem search_step (search : Search α) (k : α → Search β) (reads : List Int) :
    (search >>= k).run.run reads = match (search.run.run reads).1 with
      | none => (none, (search.run.run reads).2)
      | some a => (k a).run.run (search.run.run reads).2 := by
  simp only [OptionT.run_bind,Option.elimM,StateT.run_bind]
  rcases search.run.run reads with ⟨_ | a,reads'⟩ <;> rfl
theorem after_step (call : Decoder Bool) (ctx : Context) (reads : List Int) : (after call ctx).run.run reads =
    (if ((call.run ctx).run reads).1.1 then some ((call.run ctx).run reads).1.2 else none,
      ((call.run ctx).run reads).2) := by
  simp only [after,OptionT.run_mk,StateT.run_bind]
  rcases (call.run ctx).run reads with ⟨⟨_ | _,ctx'⟩,reads'⟩ <;> rfl
theorem searches_bind {search : Search α} {k : α → Search β}
    (first : Searches lo hi search Q) (second : ∀ a, Q a → Searches lo hi (k a) R) :
    Searches lo hi (search >>= k) R := by
  intro reads noted
  obtain ⟨noted',kept,post⟩ := first reads noted
  rw [search_step]
  cases found : (search.run.run reads).1 with
  | none => exact ⟨noted',kept,fun _ none => by cases none⟩
  | some a =>
    obtain ⟨noted'',kept',post'⟩ := second a (post a found) _ noted'
    exact ⟨noted'',fun b known => kept' b (kept b known),post'⟩
theorem searches_within {call : Decoder (Option α)} {ctx : Context}
    (stays : Stays lo hi call fun result => ∀ a, result = some a → Q a) (part : Part lo hi ctx) :
    Searches lo hi (within call ctx) Q := by
  intro reads noted
  obtain ⟨-,noted',kept,post⟩ := stays ctx reads part noted
  exact ⟨noted',kept,post⟩
theorem searches_after {call : Decoder Bool} {ctx : Context} (stays : Stays lo hi call fun _ => True)
    (part : Part lo hi ctx) : Searches lo hi (after call ctx) (Part lo hi) := by
  intro reads noted
  obtain ⟨part',noted',kept,-⟩ := stays ctx reads part noted
  rw [after_step]
  refine ⟨noted',kept,fun inner equal => ?_⟩
  split at equal
  · obtain rfl := some.inj equal
    exact part'
  · cases equal

private theorem copied_noted {p : Int} {n : Nat} (low : lo ≤ p) (high : p + n ≤ hi) : Noted lo hi (copied p n) := by
  intro a member
  obtain ⟨i,inside,rfl⟩ := List.mem_map.mp member
  have := List.mem_range.mp inside
  exact ⟨by omega,by omega⟩

private theorem searches_signatureIn (room : Nat → Bool) {ctx : Context} (part : Part lo hi ctx) :
    Searches lo hi (signatureIn mem room ctx) fun _ => True := by
  refine searches_bind (searches_after stays_sequenceNext part) fun _ part => ?_
  refine searches_bind (searches_within stays_constructedGet part) fun _ part => ?_
  refine searches_bind (searches_within stays_sequenceGet part) fun _ part => ?_
  refine searches_bind (searches_after stays_sequenceNext part) fun _ part => ?_
  refine searches_bind (searches_after stays_sequenceNext part) fun _ part => ?_
  refine searches_bind (searches_after stays_sequenceNext part) fun _ part => ?_
  refine searches_bind (searches_after stays_constructedSkipAll part) fun _ part => ?_
  refine searches_bind (searches_within stays_setGet part) fun _ part => ?_
  refine searches_bind (searches_within stays_sequenceGet part) fun _ part => ?_
  refine searches_bind (searches_after stays_sequenceNext part) fun _ part => ?_
  refine searches_bind (searches_after stays_sequenceNext part) fun _ part => ?_
  refine searches_bind (searches_after stays_sequenceNext part) fun _ part => ?_
  refine searches_bind (searches_after stays_sequenceNext part) fun _ part => ?_
  refine searches_bind (Q := fun value => lo ≤ value.1 ∧ value.1 + value.2 ≤ hi)
    (searches_within (stays_weaken (stays_primitive kTagOctetString) fun _ inside value => inside value.1 value.2) part)
    fun value inside => ?_
  intro reads noted
  dsimp only
  split
  · refine ⟨fun a member => ?_,fun a known => List.mem_append_right _ known,fun _ _ => trivial⟩
    rcases List.mem_append.mp member with new | old
    · exact copied_noted inside.1 inside.2 a new
    · exact noted a old
  · exact ⟨noted,fun _ known => known,fun _ _ => trivial⟩

theorem pkcs7Reads_inside (mem : Mem) (room : Nat → Bool) (p : Int) (n : Nat) :
    Noted p (p + n) (pkcs7Reads mem room p n) := by
  have search : Searches p (p + n) (findSignature mem room p n) fun _ => True :=
    searches_bind (searches_within stays_sequenceGet ⟨le_refl p,le_refl _⟩)
      fun _ part => searches_signatureIn room part
  exact (search [] (by simp [Noted])).1

end Recovery.Asn1Bounds
