import Recovery.Asn1Bounds
import Recovery.Machines

/-!
Programs over the decoder: calls on the contexts that were made, in any order.
-/
namespace Recovery.Asn1Calls
open Memory Asn1 Asn1Bounds Machines List Option

/-! ## Calls -/

inductive Callee
  | contextFree
  | constructedGet
  | constructedSkipAll
  | constructedType
  | sequenceGet
  | setGet
  | sequenceNext
  | oidGet
  | octetStringGet
  deriving DecidableEq, Repr

/-- A call with the context of a number, and whether `calloc` has memory for a new one. -/
structure Call where
  function : Callee
  context : Nat
  allocated : Bool
  deriving DecidableEq, Repr

/-- A context that was made: what it covers now and what it covered at first, and what its
    parent covered then. The context of `asn1_context_new` has no parent. -/
structure Made where
  now : Context
  first : Context
  parent : Option Context
  freed : Bool
  deriving DecidableEq, Repr

/-- The contexts in the order they were made, and every OID or octet string that was returned. -/
structure Session where
  contexts : List Made
  values : List (Int × Nat)
  deriving DecidableEq, Repr

def start (buffer : Int) (length : Nat) : Session :=
  ⟨[⟨asn1ContextNew buffer length, asn1ContextNew buffer length, none, false⟩], []⟩

def decode {α : Type} (call : Decoder α) (ctx : Context) : α × Context := ((call.run ctx).run []).1

def Session.moved (s : Session) (i : Nat) (made : Made) (now : Context) : Session :=
  { s with contexts := s.contexts.set i { made with now := now } }
def Session.push (s : Session) (child parent : Context) : Session :=
  { s with contexts := s.contexts ++ [⟨child, child, some parent, false⟩] }

def getContext (s : Session) (i : Nat) (made : Made) (call : Decoder (Option Context)) (allocated : Bool)
    (unallocated : Session → Option Session) : Option Session :=
  let (child, now) := decode call made.now
  match child with
  | none => some (s.moved i made now)
  | some child => if allocated then some ((s.moved i made now).push child now) else unallocated (s.moved i made now)
def getValue (s : Session) (i : Nat) (made : Made) (call : Decoder (Option (Int × Nat))) : Session :=
  let (value, now) := decode call made.now
  { s.moved i made now with values := value.toList ++ s.values }

/-- One call; none if it is made with a context that there is not (any more), or does not return. -/
def step (mem : Mem) (s : Session) (call : Call) : Option Session := do
  let made ← s.contexts[call.context]?
  if made.freed then none
  else match call.function with
    | .contextFree => some { s with contexts := s.contexts.set call.context { made with freed := true } }
    -- a child without memory is written to
    | .constructedGet => getContext s call.context made (asn1ConstructedGet mem) call.allocated fun _ => none
    | .constructedSkipAll => some (s.moved call.context made (decode (asn1ConstructedSkipAll mem) made.now).2)
    | .constructedType => some s
    | .sequenceGet => getContext s call.context made (asn1SequenceGet mem) call.allocated some
    | .setGet => getContext s call.context made (asn1SetGet mem) call.allocated some
    | .sequenceNext => some (s.moved call.context made (decode (asn1SequenceNext mem) made.now).2)
    | .oidGet => some (getValue s call.context made (asn1OidGet mem))
    | .octetStringGet => some (getValue s call.context made (asn1OctetStringGet mem))

/-! ## What a call returns is in what the context has left -/

section
variable {α β : Type} {mem : Mem}

/-- What a call returns, stated with the context as the call leaves it. -/
def Yields (call : Decoder α) (Q : α → Context → Prop) : Prop :=
  ∀ ctx reads, Q ((call.run ctx).run reads).1.1 ((call.run ctx).run reads).1.2

theorem yields_pure {Q : α → Context → Prop} {a : α} (post : ∀ ctx, Q a ctx) : Yields (pure a) Q :=
  fun ctx _ => post ctx
theorem yields_bind {Q : β → Context → Prop} (call : Decoder α) {k : α → Decoder β} (rest : ∀ a, Yields (k a) Q) :
    Yields (call >>= k) Q :=
  fun _ _ => rest _ _ _

abbrev Covers (outer inner : Context) : Prop := Part outer.p (outer.p + outer.length) inner
def Contains (ctx : Context) (value : Int × Nat) : Prop := ctx.p ≤ value.1 ∧ value.1 + value.2 ≤ ctx.p + ctx.length

theorem covers_refl (ctx : Context) : Covers ctx ctx := ⟨le_refl _,le_refl _⟩
theorem part_of_covers {lo hi : Int} {outer inner : Context} (part : Part lo hi outer) (covers : Covers outer inner) :
    Part lo hi inner :=
  ⟨le_trans part.1 covers.1,le_trans covers.2 part.2⟩

theorem yields_contents (appType : Nat) :
    Yields (contents mem appType) fun child now => ∀ c, child = some c → Covers now c := by
  refine yields_bind _ fun length => ?_
  cases length with
  | none => exact yields_pure fun _ _ equal => by cases equal
  | some length =>
    intro ctx reads
    simp only [StateT.run_bind,StateT.run_get,pure_bind]
    split
    · intro c equal
      cases equal
    intro c equal
    obtain rfl := some.inj equal
    refine ⟨le_refl _,?_⟩
    change ctx.p + (length : Int) ≤ ctx.p + ctx.length
    omega
private theorem yields_constructedGet :
    Yields (asn1ConstructedGet mem) fun child now => ∀ c, child = some c → Covers now c := by
  refine yields_bind _ fun type => ?_
  cases type with
  | none => exact yields_pure fun _ _ equal => by cases equal
  | some type =>
    dsimp only
    split
    · exact yields_pure fun _ _ equal => by cases equal
    · exact yields_contents _
theorem yields_tagged (tag : Nat) (byte : Option Nat) :
    Yields (if maskedTag byte ≠ tag then pure none else contents mem 0)
      fun child now => ∀ c, child = some c → Covers now c := by
  split
  · exact yields_pure fun _ _ equal => by cases equal
  · exact yields_contents _
theorem yields_primitive (tag : Nat) :
    Yields (primitive mem tag) fun value now => ∀ v, value = some v → Contains now v := by
  refine yields_bind _ fun byte => ?_
  split
  · exact yields_pure fun _ _ equal => by cases equal
  refine yields_bind _ fun length => ?_
  cases length with
  | none => exact yields_pure fun _ _ equal => by cases equal
  | some length =>
    intro ctx reads
    simp only [StateT.run_bind,StateT.run_get,pure_bind]
    split
    · intro v equal
      cases equal
    intro v equal
    obtain rfl := some.inj equal
    refine ⟨le_refl _,?_⟩
    change ctx.p + (length : Int) ≤ ctx.p + ctx.length
    omega

theorem decode_stays {call : Decoder α} {Q : α → Prop} {ctx : Context}
    (stays : Stays ctx.p (ctx.p + ctx.length) call Q) : Covers ctx (decode call ctx).2 :=
  (stays ctx [] (covers_refl ctx) (by simp [Noted])).1
theorem decode_yields {call : Decoder α} {Q : α → Context → Prop} (yields : Yields call Q) (ctx : Context) :
    Q (decode call ctx).1 (decode call ctx).2 :=
  yields ctx []

end

/-! ## Runs -/

section
variable {mem : Mem} {s t : Session}

/-- What a call does: its context covers a part of what it covered, and whatever is made or
    returned is in what is left of it. -/
def Does (s : Session) (i : Nat) (t : Session) : Prop :=
  ∃ made now freed children values, s.contexts[i]? = some made ∧ Covers made.now now ∧
    t = ⟨s.contexts.set i { made with now := now, freed := freed } ++ children, values ++ s.values⟩ ∧
    (∀ c ∈ children, c.now = c.first ∧ c.parent = some now ∧ Covers now c.first) ∧ ∀ v ∈ values, Contains now v

theorem does_moved {i : Nat} {made : Made} {now : Context} (there : s.contexts[i]? = some made)
    (covers : Covers made.now now) : Does s i (s.moved i made now) :=
  ⟨made,now,made.freed,[],[],there,covers,by simp [Session.moved],by simp,by simp⟩
theorem does_getContext {i : Nat} {made : Made} {call : Decoder (Option Context)} {allocated : Bool}
    {unallocated : Session → Option Session} (there : s.contexts[i]? = some made)
    (covers : Covers made.now (decode call made.now).2)
    (child : ∀ c, (decode call made.now).1 = some c → Covers (decode call made.now).2 c)
    (fails : ∀ s', unallocated s' = none ∨ unallocated s' = some s')
    (got : getContext s i made call allocated unallocated = some t) : Does s i t := by
  unfold getContext at got
  rcases result : decode call made.now with ⟨_ | c,now⟩
  · rw [result] at got covers
    obtain rfl := some.inj got
    exact does_moved there covers
  rw [result] at got covers child
  dsimp only at got
  split at got
  · obtain rfl := some.inj got
    refine ⟨made,now,made.freed,[⟨c,c,some now,false⟩],[],there,covers,?_,?_,by simp⟩
    · simp [Session.moved,Session.push]
    · intro d member
      obtain rfl := mem_singleton.mp member
      exact ⟨rfl,rfl,child c rfl⟩
  · rcases fails (s.moved i made now) with failed | failed
    · rw [failed] at got
      cases got
    · rw [failed] at got
      obtain rfl := some.inj got
      exact does_moved there covers
theorem does_getValue {i : Nat} {made : Made} {call : Decoder (Option (Int × Nat))} (there : s.contexts[i]? = some made)
    (covers : Covers made.now (decode call made.now).2)
    (value : ∀ v, (decode call made.now).1 = some v → Contains (decode call made.now).2 v) :
    Does s i (getValue s i made call) := by
  refine ⟨made,(decode call made.now).2,made.freed,[],(decode call made.now).1.toList,there,covers,?_,
    by simp,?_⟩
  · simp [getValue,Session.moved]
  · intro v member
    exact value v (mem_toList.mp member)

private theorem step_does {call : Call} (taken : step mem s call = some t) : Does s call.context t := by
  obtain ⟨made,there,taken⟩ := bind_eq_some_iff.mp taken
  split at taken
  · cases taken
  cases function : call.function <;> rw [function] at taken <;> dsimp only at taken
  case contextFree =>
    obtain rfl := some.inj taken
    exact ⟨made,made.now,true,[],[],there,covers_refl _,by simp,by simp,by simp⟩
  case constructedGet =>
    exact does_getContext there (decode_stays stays_constructedGet) (decode_yields yields_constructedGet _)
      (fun _ => .inl rfl) taken
  case constructedSkipAll =>
    obtain rfl := some.inj taken
    exact does_moved there (decode_stays stays_constructedSkipAll)
  case constructedType =>
    obtain rfl := some.inj taken
    refine ⟨made,made.now,made.freed,[],[],there,covers_refl _,?_,by simp,by simp⟩
    have same : s.contexts.set call.context made = s.contexts := by
      obtain ⟨inside,rfl⟩ := List.getElem?_eq_some_iff.mp there
      exact set_getElem_self inside
    rw [same,append_nil,nil_append]
  case sequenceGet =>
    exact does_getContext there (decode_stays stays_sequenceGet)
      (decode_yields (yields_bind _ fun byte => yields_tagged kTagSequence byte) _) (fun _ => .inr rfl) taken
  case setGet =>
    exact does_getContext there (decode_stays stays_setGet)
      (decode_yields (yields_bind _ fun byte => yields_tagged kTagSet byte) _) (fun _ => .inr rfl) taken
  case sequenceNext =>
    obtain rfl := some.inj taken
    exact does_moved there (decode_stays stays_sequenceNext)
  case oidGet =>
    obtain rfl := some.inj taken
    exact does_getValue there (decode_stays (stays_primitive kTagOid)) (decode_yields (yields_primitive kTagOid) _)
  case octetStringGet =>
    obtain rfl := some.inj taken
    exact does_getValue there (decode_stays (stays_primitive kTagOctetString))
      (decode_yields (yields_primitive kTagOctetString) _)

/-- A context covers a part of what it covered at first, and that is a part of what its
    parent covered then. -/
structure Nested (lo hi : Int) (made : Made) : Prop where
  block : Part lo hi made.first
  shrunk : Covers made.first made.now
  parent : ∀ parent, made.parent = some parent → Part lo hi parent ∧ Covers parent made.first

/-- Every context is nested, and every value is in the block. -/
structure Kept (lo hi : Int) (s : Session) : Prop where
  contexts : ∀ made ∈ s.contexts, Nested lo hi made
  values : ∀ value ∈ s.values, lo ≤ value.1 ∧ value.1 + value.2 ≤ hi

private theorem start_kept (buffer : Int) (length : Nat) : Kept buffer (buffer + length) (start buffer length) := by
  refine ⟨fun made member => ?_,fun value member => by cases member⟩
  obtain rfl := mem_singleton.mp member
  exact ⟨covers_refl (asn1ContextNew buffer length),covers_refl _,fun _ equal => by cases equal⟩

theorem step_kept {lo hi : Int} {call : Call} (kept : Kept lo hi s) (taken : step mem s call = some t) :
    Kept lo hi t := by
  obtain ⟨made,now,freed,children,values,there,covers,rfl,born,inside⟩ := step_does taken
  have nested : Nested lo hi made := kept.contexts made (mem_of_getElem? there)
  have left : Part lo hi now := part_of_covers nested.block (part_of_covers nested.shrunk covers)
  constructor
  · intro c member
    rcases mem_append.mp member with old | new
    · rcases mem_or_eq_of_mem_set old with same | rfl
      · exact kept.contexts c same
      · exact ⟨nested.block,part_of_covers nested.shrunk covers,nested.parent⟩
    · obtain ⟨fresh,parent,within⟩ := born c new
      refine ⟨part_of_covers left within,fresh ▸ covers_refl _,fun p equal => ?_⟩
      obtain rfl := some.inj (parent.symm.trans equal)
      exact ⟨left,within⟩
  · intro value member
    rcases mem_append.mp member with new | old
    · have := inside value new
      exact ⟨le_trans left.1 this.1,le_trans this.2 left.2⟩
    · exact kept.values value old

/-- In every program that starts with a context for a buffer, every context covers a part of
    the buffer, inside of what its parent covered when it was made, and every OID and octet
    string is in the buffer. -/
theorem contexts_nested (mem : Mem) (buffer : Int) (length : Nat) (calls : List Call) (s : Session)
    (runs : run (step mem) (start buffer length) calls = some s) :
    (∀ made ∈ s.contexts, Part buffer (buffer + length) made.now ∧ Part buffer (buffer + length) made.first ∧
      ∀ parent, made.parent = some parent → Covers parent made.now ∧ Covers parent made.first) ∧
    ∀ value ∈ s.values, buffer ≤ value.1 ∧ value.1 + value.2 ≤ buffer + length := by
  have kept : Kept buffer (buffer + length) s := run_invariant step_kept (start_kept buffer length) runs
  refine ⟨fun made member => ?_, kept.values⟩
  have nested := kept.contexts made member
  refine ⟨part_of_covers nested.block nested.shrunk, nested.block, fun parent equal => ?_⟩
  obtain ⟨-, covers⟩ := nested.parent parent equal
  exact ⟨part_of_covers covers nested.shrunk, covers⟩

end

def oidInside : Bytes := [0x30, 5, 0xA0, 3, 6, 1, 0x55]
def oidCalls : List Call :=
  [⟨.sequenceGet, 0, true⟩, ⟨.constructedGet, 1, true⟩, ⟨.oidGet, 2, true⟩, ⟨.contextFree, 1, true⟩]

theorem oidInside_nested : ∃ s, run (step fun a => oidInside.getD a.toNat 0) (start 0 7) oidCalls = some s ∧
    s.values = [(6, 1)] ∧ (∀ made ∈ s.contexts, Part 0 7 made.now) ∧
      ∀ value ∈ s.values, 0 ≤ value.1 ∧ value.1 + value.2 ≤ 7 := by
  refine ⟨_, rfl, rfl, ?_⟩
  obtain ⟨contexts, values⟩ := contexts_nested (fun a => oidInside.getD a.toNat 0) 0 7 oidCalls _ rfl
  exact ⟨fun made member => (contexts made member).1, values⟩

end Recovery.Asn1Calls
