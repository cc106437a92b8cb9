import Recovery.ExtractResult
import Recovery.Watching

/-!
What is handed out of an archive entry, and what the three functions that take it make of
it. zlib is deterministic here: what it returns for the data at hand is given by `code`, and a
run is honest if the answers to its calls of `inflate` are these.
-/
namespace Recovery.ZipStreams
open Memory Numbers Program Program.Prog Watching Option
open ZipArchive Extract ExtractResult

/-! ## The stream of a deflated entry -/

section
variable {σ : Type} (abi : Abi) (file : Bytes) {Z : Inflater} (code : Z.State → Bytes → Nat → Int)

/-- How much the next `read` is for. -/
def getSize (l : Inflating Z) : Int := if l.compRemaining > bufferSize then (bufferSize : Int) else l.compRemaining
/-- The loop variables after a `read` that gets all it is for, if there is one to do. -/
def fed (l : Inflating Z) : Inflating Z :=
  if l.next_in.length = 0 then
    { l with
      compRemaining := l.compRemaining - getSize l
      pos := l.pos + (getSize l).toNat
      next_in := (file.drop l.pos).take (getSize l).toNat }
  else l
def Ready (l : Inflating Z) : Prop :=
  l.next_in.length = 0 → 0 ≤ getSize l ∧ (getSize l).toNat ≤ file.length - l.pos
instance (l : Inflating Z) : Decidable (Ready file l) := inferInstanceAs (Decidable (_ → _))
def codeOf (l : Inflating Z) : Int := code l.zstream l.next_in (bufferSize - l.procBuf.length)

/-- A round in which everything goes well: what is handed out, and the variables of the next
    round or the result. -/
def streamRound (l : Inflating Z) : Option (Bytes × (Inflating Z ⊕ Int)) :=
  if Ready file l then
    let zerr := codeOf code (fed file l)
    let l := inflated abi (fed file l) zerr
    if zerr ≠ Z_OK ∧ zerr ≠ Z_STREAM_END then none
    else if l.procBuf.length = bufferSize ∨ (zerr = Z_STREAM_END ∧ l.procBuf.length ≠ 0) then
      some (l.procBuf, if zerr = Z_OK then .inl { l with procBuf := [] } else .inr (abi.long l.total_out))
    else some ([], if zerr = Z_OK then .inl l else .inr (abi.long l.total_out))
  else none
def handedOut : Nat → Inflating Z → Bytes
  | 0, _ => []
  | n + 1, l =>
    match streamRound abi file code l with
    | none => []
    | some (data, .inl l) => data ++ handedOut n l
    | some (data, .inr _) => data
/-- All that is handed out until zlib says that the stream has ended, and the result. -/
inductive StreamEnds : Inflating Z → Bytes → Int → Prop where
  | last {l : Inflating Z} {data : Bytes} {result : Int}
      (round : streamRound abi file code l = some (data, .inr result)) : StreamEnds l data result
  | more {l next : Inflating Z} {data rest : Bytes} {result : Int}
      (round : streamRound abi file code l = some (data, .inl next)) (ends : StreamEnds next rest result) :
      StreamEnds l (data ++ rest) result

/-- The answer to `inflate` is what zlib returns; the one to a `read` comes before it. -/
def Right (l : Inflating Z) (io : List Int) : Prop :=
  ∀ zerr, (if l.next_in.length = 0 then io[1]? else io[0]?) = some zerr → zerr = codeOf code (fed file l)

def inflateRound (processFunction : Bytes → Prog σ Int Bool) (l : Inflating Z) : Prog σ Int (Inflating Z ⊕ Int) := do
  match ← refill file l with
  | none => pure (.inr (-1))
  | some l => do
    let zerr ← Prog.ask
    let l := inflated abi l zerr
    if zerr ≠ Z_OK ∧ zerr ≠ Z_STREAM_END then pure (.inr (-1))
    else if l.procBuf.length = bufferSize ∨ (zerr = Z_STREAM_END ∧ l.procBuf.length ≠ 0) then do
      if ← processFunction l.procBuf then
        pure (if zerr = Z_OK then .inl { l with procBuf := [] } else .inr (abi.long l.total_out))
      else pure (.inr (-1))
    else pure (if zerr = Z_OK then .inl l else .inr (abi.long l.total_out))
theorem inflateLoop_eq (process : Bytes → Prog σ Int Bool) (l : Inflating Z) :
    inflateLoop abi file process l = iterate (inflateRound abi file process) l := rfl

end

section
variable {σ : Type} {abi : Abi} {file : Bytes} {Z : Inflater} {code : Z.State → Bytes → Nat → Int} {l : Inflating Z}

variable {result : Int} {io : List Int} {K : Bytes → σ → Prop} {out : Bytes} {data : Bytes} {s : σ}
  {process : Bytes → Prog σ Int Bool}

theorem streamEnds_unique {w w' : Bytes} {result' : Int} (first : StreamEnds abi file code l w result)
    (second : StreamEnds abi file code l w' result') : w = w' ∧ result = result' := by
  induction first generalizing w' with
  | last round =>
    cases second with
    | last round' =>
      obtain ⟨rfl,same⟩ := Prod.mk.inj (some.inj (round.symm.trans round'))
      exact ⟨rfl,Sum.inr.inj same⟩
    | more round' _ => cases round.symm.trans round'
  | more round _ ih =>
    cases second with
    | last round' => cases round.symm.trans round'
    | more round' ends' =>
      obtain ⟨rfl,same⟩ := Prod.mk.inj (some.inj (round.symm.trans round'))
      obtain rfl := Sum.inl.inj same
      obtain ⟨rfl,rfl⟩ := ih ends'
      exact ⟨rfl,rfl⟩

private theorem fed_kept (file : Bytes) (l : Inflating Z) :
    (fed file l).procBuf = l.procBuf ∧ (fed file l).total_out = l.total_out := by
  unfold fed
  split <;> exact ⟨rfl,rfl⟩
theorem streamRound_total {after : Inflating Z ⊕ Int}
    (round : streamRound abi file code l = some (data, after)) {done : Nat}
    (total : l.total_out = abi.ptr (done + l.procBuf.length)) :
    after.elim (fun next => next.total_out = abi.ptr (done + data.length + next.procBuf.length))
      fun result => result = abi.long (done + data.length) := by
  obtain ⟨buffer,count⟩ := fed_kept file l
  have counted (zerr : Int) : (inflated abi (fed file l) zerr).total_out =
      abi.ptr (done + (inflated abi (fed file l) zerr).procBuf.length) := by
    dsimp only [inflated]
    rw [count,total,ptr_ptr_add,List.length_append,buffer,Nat.add_assoc]
  unfold streamRound at round
  split at round
  · dsimp only at round
    generalize codeOf code (fed file l) = zerr at round
    split at round
    · cases round
    split at round
    · obtain ⟨rfl,rfl⟩ := Prod.mk.inj (some.inj round)
      split
      · exact counted zerr
      · change abi.long _ = _
        rw [counted zerr,long_ptr]
    · rename_i good kept
      obtain ⟨rfl,rfl⟩ := Prod.mk.inj (some.inj round)
      split
      · exact counted zerr
      rename_i goesOn
      have ended : zerr = Z_STREAM_END := by
        by_contra other
        exact good ⟨goesOn,other⟩
      have nothing : (inflated abi (fed file l) zerr).procBuf.length = 0 := by
        by_contra some
        exact kept (.inr ⟨ended,some⟩)
      rw [counted zerr,long_ptr,nothing]
      rfl
  · cases round
theorem streamEnds_length {w : Bytes} (ends : StreamEnds abi file code l w result) {done : Nat}
    (total : l.total_out = abi.ptr (done + l.procBuf.length)) : result = abi.long (done + w.length) := by
  induction ends generalizing done with
  | last round => exact streamRound_total round total
  | more round ends ih =>
    rw [List.length_append,← Nat.add_assoc]
    exact ih (streamRound_total round total)

theorem refill_run (file : Bytes) (l : Inflating Z) (s : σ) (io : List Int) : refill file l s io =
    if l.next_in.length = 0 then
      if getSize l < 0 then ⟨none,s,io⟩
      else match io with
        | [] => ⟨none,s,[]⟩
        | answer :: io =>
          ⟨some (if (readAt file l.pos (getSize l).toNat answer).1 = getSize l then some (fed file l) else none),s,io⟩
    else ⟨some (some (fed file l)),s,io⟩ := by
  have unfolded : (refill file l : Prog σ Int _) = if l.next_in.length = 0 then
      if getSize l < 0 then stuck
      else ask >>= fun answer =>
        if (readAt file l.pos (getSize l).toNat answer).1 ≠ getSize l then pure none
        else pure (some { l with
          compRemaining := l.compRemaining - getSize l
          pos := l.pos + (getSize l).toNat
          next_in := (readAt file l.pos (getSize l).toNat answer).2 })
      else pure (some l) := rfl
  rw [unfolded,fed]
  by_cases empty : l.next_in.length = 0
  · split_ifs with negative
    · rfl
    cases io with
    | nil => rfl
    | cons answer io =>
      rw [bind_run,ask_run,next_some rfl]
      dsimp only
      by_cases whole : (readAt file l.pos (getSize l).toNat answer).1 = getSize l
      · rw [if_neg (not_not.mpr whole),(readAt_all (by omega)).1,if_pos whole]
        rfl
      · rw [if_pos whole,if_neg whole]
        rfl
  · rw [if_neg empty,if_neg empty,if_neg empty]
    rfl

private theorem refill_cases (l : Inflating Z) (s : σ) (io : List Int) :
    (((refill file l s io).value = none ∨ (refill file l s io).value = some none) ∧ (refill file l s io).state = s) ∨
      ∃ rest, refill file l s io = ⟨some (some (fed file l)),s,rest⟩ ∧ Ready file l ∧
        rest[0]? = if l.next_in.length = 0 then io[1]? else io[0]? := by
  rw [refill_run]
  split_ifs with empty negative
  · exact .inl ⟨.inl rfl,rfl⟩
  · cases io with
    | nil => exact .inl ⟨.inl rfl,rfl⟩
    | cons answer io =>
      dsimp only
      split_ifs with whole
      · have length := (readAt_all (show (readAt file l.pos (getSize l).toNat answer).1 = _ by omega)).2
        rw [List.length_take,List.length_drop] at length
        exact .inr ⟨io,rfl,fun _ => ⟨by omega,by omega⟩,rfl⟩
      · exact .inl ⟨.inr rfl,rfl⟩
  · exact .inr ⟨io,rfl,fun none => absurd none empty,rfl⟩

/-- A round whose data is there: zlib reports an error, or it is one of the stream, whose data the
    process function takes or not. -/
theorem round_filled (process : Bytes → Prog σ Int Bool) {rest : List Int} (ready : Ready file l)
    (filled : refill file l s io = ⟨some (some (fed file l)),s,codeOf code (fed file l) :: rest⟩) :
    (streamRound abi file code l = none ∧ inflateRound abi file process l s io = ⟨some (.inr (-1)),s,rest⟩) ∨
      ∃ data after, streamRound abi file code l = some (data, after) ∧
        ((data = [] ∧ inflateRound abi file process l s io = ⟨some after,s,rest⟩) ∨
          inflateRound abi file process l s io = next (process data s rest)
            fun ok => pure (if ok then after else .inr (-1))) := by
  have unfolded : inflateRound abi file process l s io = next (refill file l s io) _ := rfl
  rw [unfolded,filled,next_some rfl]
  unfold streamRound
  rw [if_pos ready]
  generalize codeOf code (fed file l) = zerr
  dsimp only
  rw [bind_run,ask_run,next_some rfl]
  by_cases bad : zerr ≠ Z_OK ∧ zerr ≠ Z_STREAM_END
  · rw [if_pos bad,if_pos bad]
    exact .inl ⟨rfl,rfl⟩
  rw [if_neg bad,if_neg bad]
  right
  split
  · refine ⟨_,_,rfl,.inr ?_⟩
    rw [bind_run]
    congr 1
    funext ok
    cases ok <;> rfl
  · exact ⟨_,_,rfl,.inl ⟨rfl,rfl⟩⟩
theorem round_cases (process : Bytes → Prog σ Int Bool) (s : σ) (right : Right file code l io) :
    (((inflateRound abi file process l s io).value = none ∨
        (inflateRound abi file process l s io).value = some (.inr (-1))) ∧
        (inflateRound abi file process l s io).state = s) ∨
      ∃ data after, streamRound abi file code l = some (data, after) ∧ ∃ rest,
        ((data = [] ∧ inflateRound abi file process l s io = ⟨some after,s,rest⟩) ∨
          inflateRound abi file process l s io = next (process data s rest)
            fun ok => pure (if ok then after else .inr (-1))) := by
  have unfolded : inflateRound abi file process l s io = next (refill file l s io) _ := rfl
  rcases refill_cases l s io with ⟨stopped | failed,same⟩ | ⟨rest,filled,ready,first⟩
  · refine .inl ?_
    rw [unfolded,next_none stopped]
    exact ⟨.inl rfl,same⟩
  · refine .inl ?_
    rw [unfolded,next_some failed]
    exact ⟨.inr rfl,same⟩
  cases rest with
  | nil =>
    rw [unfolded,filled]
    exact .inl ⟨.inl rfl,rfl⟩
  | cons zerr rest =>
    obtain rfl : zerr = codeOf code (fed file l) := right zerr first.symm
    rcases round_filled process ready filled with ⟨-,ends⟩ | ⟨data,after,round,goes⟩
    · rw [ends]
      exact .inl ⟨.inr rfl,rfl⟩
    · exact .inr ⟨data,after,round,rest,goes⟩

private theorem round_delivers (deliver : Delivers K process)
    (known : K out s) (right : Right file code l io) {r : Inflating Z ⊕ Int}
    (value : (inflateRound abi file process l s io).value = some r) : r = .inr (-1) ∨
      ∃ data, streamRound abi file code l = some (data, r) ∧
        K (out ++ data) (inflateRound abi file process l s io).state := by
  rcases round_cases process s right with ⟨stopped | failed,-⟩ | ⟨data,after,round,rest,⟨rfl,same⟩ | same⟩
  · cases stopped.symm.trans value
  · exact .inl (some.inj (value.symm.trans failed))
  · rw [same] at value ⊢
    obtain rfl := some.inj value
    refine .inr ⟨[],round,?_⟩
    rwa [List.append_nil]
  · rw [same] at value ⊢
    cases taken : (process data s rest).value with
    | none =>
      rw [next_none taken] at value
      cases value
    | some ok =>
      rw [next_some taken] at value ⊢
      cases ok with
      | false => exact .inl (some.inj value).symm
      | true =>
        obtain rfl := some.inj value
        exact .inr ⟨data,round,(deliver out data s rest known).1 true taken rfl⟩

theorem guided_delivers (deliver : Delivers K process)
    (known : K [] s)
    (guided : Guided (inflateRound abi file process) (Right file code) (io.length + 1) l s io)
    (returned : (inflateLoop abi file process l s io).value = some result) :
    result = -1 ∨ ∃ w, StreamEnds abi file code l w result ∧ K w (inflateLoop abi file process l s io).state := by
  refine (guided_rounds (I := fun next t => ∃ out, K out t ∧ ∀ w r, StreamEnds abi file code next w r →
      StreamEnds abi file code l (out ++ w) r) (Q := fun r t => r = -1 ∨ ∃ w, StreamEnds abi file code l w r ∧ K w t)
    (C := fun _ => True) ?_ (fun _ _ _ => trivial) ⟨[],known,fun w r ends => ends⟩ guided).1 result returned
  rintro next t as ⟨out,known,behind⟩ right
  refine ⟨fun _ => trivial,fun r value => ?_⟩
  rcases round_delivers deliver known right value with rfl | ⟨data,round,known⟩
  · exact .inl rfl
  cases r with
  | inl later =>
    refine ⟨out ++ data,known,fun w r ends => ?_⟩
    rw [List.append_assoc]
    exact behind _ _ (.more round ends)
  | inr result => exact .inr ⟨out ++ data,behind _ _ (.last round),known⟩

/-- A process function that takes everything at once as long as it fits. -/
def Accepts (K : Bytes → σ → Prop) (fits : Nat → Prop) (process : Bytes → Prog σ Int Bool) : Prop :=
  ∀ taken data s, K taken s → fits (taken.length + data.length) →
    ∃ t, (∀ as, process data s as = ⟨some true, t, as⟩) ∧ K (taken ++ data) t
/-- A process function that everything fits. -/
abbrev Collects (K : Bytes → σ → Prop) (process : Bytes → Prog σ Int Bool) : Prop := Accepts K (fun _ => True) process

private theorem round_collects (collect : Collects K process)
    (known : K out s) (right : Right file code l io) :
    (((inflateRound abi file process l s io).value = none ∨
        (inflateRound abi file process l s io).value = some (.inr (-1))) ∧
        (inflateRound abi file process l s io).state = s) ∨
      ∃ data after, streamRound abi file code l = some (data, after) ∧
        (inflateRound abi file process l s io).value = some after ∧
        K (out ++ data) (inflateRound abi file process l s io).state := by
  rcases round_cases process s right with stops | ⟨data,after,round,rest,⟨rfl,same⟩ | same⟩
  · exact .inl stops
  · refine .inr ⟨[],after,round,?_⟩
    rw [same,List.append_nil]
    exact ⟨rfl,known⟩
  · obtain ⟨t,taken,known⟩ := collect out data s known trivial
    refine .inr ⟨data,after,round,?_⟩
    rw [same,taken,next_some rfl]
    exact ⟨rfl,known⟩

private theorem handedOut_none (stops : streamRound abi file code l = none) (n : Nat) : handedOut abi file code n l = [] := by
  cases n with
  | zero => rfl
  | succ n => rw [handedOut,stops]
theorem handedOut_more {next : Inflating Z}
    (round : streamRound abi file code l = some (data, .inl next)) (n : Nat) :
    handedOut abi file code (n + 1) l = data ++ handedOut abi file code n next := by
  rw [handedOut,round]
theorem handedOut_last (round : streamRound abi file code l = some (data, .inr result))
    (n : Nat) : handedOut abi file code (n + 1) l = data := by
  rw [handedOut,round]

theorem guided_collects (collect : Collects K process)
    (known : K [] s)
    (guided : Guided (inflateRound abi file process) (Right file code) (io.length + 1) l s io) :
    ∃ n, K (handedOut abi file code n l) (inflateLoop abi file process l s io).state := by
  have both := guided_rounds (I := fun next t => ∃ n, K (handedOut abi file code n l) t ∧
      ∀ m, handedOut abi file code (n + m) l = handedOut abi file code n l ++ handedOut abi file code m next)
    (Q := fun _ t => ∃ n, K (handedOut abi file code n l) t) (C := fun t => ∃ n, K (handedOut abi file code n l) t)
    ?_ (fun _ _ ⟨n,stay,_⟩ => ⟨n,stay⟩) ⟨0,known,fun m => by rw [Nat.zero_add,handedOut,List.nil_append]⟩ guided
  · cases value : (rounds (inflateRound abi file process) (io.length + 1) l s io).value with
    | none => exact both.2 value
    | some r => exact both.1 r value
  · rintro next t as ⟨n,stay,behind⟩ right
    rcases round_collects collect stay right with ⟨stops,same⟩ | ⟨data,after,round,value,known⟩
    · rw [same]
      refine ⟨fun _ => ⟨n,stay⟩,fun r value => ?_⟩
      rcases stops with stopped | failed
      · cases stopped.symm.trans value
      · obtain rfl := some.inj (failed.symm.trans value)
        exact ⟨n,stay⟩
    · refine ⟨fun absent => (by cases absent.symm.trans value),fun r value' => ?_⟩
      obtain rfl := some.inj (value.symm.trans value')
      cases after with
      | inl later =>
        have here := behind 1
        rw [handedOut_more round,handedOut,List.append_nil] at here
        refine ⟨n + 1,here ▸ known,fun m => ?_⟩
        rw [here,show n + 1 + m = n + (m + 1) by omega,behind,handedOut_more round,List.append_assoc]
      | inr result =>
        refine ⟨n + 1,?_⟩
        rwa [behind 1,handedOut_last round]

theorem readAt_bufferSize {pos count : Nat} (small : count ≤ bufferSize) :
    readAt file pos count bufferSize = ((((file.drop pos).take count).length : Int), (file.drop pos).take count) := by
  rw [readAt,if_neg (by omega)]
  rw [Int.toNat_natCast,Nat.min_eq_right small]
private theorem refill_ready (ready : Ready file l) (s : σ) (io : List Int) :
    refill file l s ((if l.next_in.length = 0 then [(bufferSize : Int)] else []) ++ io) =
      ⟨some (some (fed file l)),s,io⟩ := by
  rw [refill_run]
  split_ifs with empty negative
  · exact absurd (ready empty).1 (by omega)
  · have small : (getSize l).toNat ≤ bufferSize := by
      unfold getSize
      split <;> omega
    have whole : (((file.drop l.pos).take (getSize l).toNat).length : Int) = getSize l := by
      have inside := (ready empty).2
      rw [List.length_take,List.length_drop]
      omega
    dsimp only [List.singleton_append]
    rw [readAt_bufferSize small,if_pos whole]
  · rfl
private theorem round_nil (abi : Abi) (file : Bytes) (process : Bytes → Prog σ Int Bool) (l : Inflating Z) (s : σ) :
    (inflateRound abi file process l s []).value = none ∧ (inflateRound abi file process l s []).state = s := by
  have unfolded : inflateRound abi file process l s [] = next (refill file l s []) _ := rfl
  rw [unfolded,refill_run]
  split_ifs <;> exact ⟨rfl,rfl⟩

variable (abi file code) in
def answersFor : Nat → Inflating Z → List Int
  | 0, _ => []
  | n + 1, l => (if l.next_in.length = 0 then [(bufferSize : Int)] else []) ++ codeOf code (fed file l) ::
    match streamRound abi file code l with
    | some (_, .inl next) => answersFor n next
    | _ => []

variable (abi file code) in
theorem answersFor_right (n : Nat) (l : Inflating Z) : Right file code l (answersFor abi file code n l) := by
  intro zerr answer
  cases n with
  | zero => simp [answersFor] at answer
  | succ n =>
    rw [answersFor] at answer
    split at answer
    · exact (some.inj answer).symm
    · exact (some.inj answer).symm
theorem round_answered (collect : Collects K process)
    {after : Inflating Z ⊕ Int} (known : K out s)
    (round : streamRound abi file code l = some (data, after)) (rest : List Int) : ∃ t, K (out ++ data) t ∧
      inflateRound abi file process l s ((if l.next_in.length = 0 then [(bufferSize : Int)] else []) ++
        codeOf code (fed file l) :: rest) = ⟨some after,t,rest⟩ := by
  have ready : Ready file l := by
    by_contra missing
    rw [streamRound,if_neg missing] at round
    cases round
  rcases round_filled process ready (refill_ready ready s (codeOf code (fed file l) :: rest)) with
    ⟨stops,-⟩ | ⟨data',after',round',goes⟩
  · cases stops.symm.trans round
  · obtain ⟨rfl,rfl⟩ := Prod.mk.inj (some.inj (round'.symm.trans round))
    rcases goes with ⟨rfl,same⟩ | same
    · exact ⟨s,by rwa [List.append_nil],same⟩
    · obtain ⟨t,taken,known⟩ := collect out data' s known trivial
      rw [same,taken]
      exact ⟨t,known,rfl⟩
variable (abi file code) in
theorem handedOut_reached (collect : Collects K process)
    (n : Nat) (l : Inflating Z) {fuel : Nat} (known : K out s)
    (enough : (answersFor abi file code n l).length < fuel) :
    Guided (inflateRound abi file process) (Right file code) fuel l s (answersFor abi file code n l) ∧
      K (out ++ handedOut abi file code n l)
        (rounds (inflateRound abi file process) fuel l s (answersFor abi file code n l)).state := by
  induction n generalizing l s out fuel with
  | zero =>
    obtain ⟨fuel,rfl⟩ : ∃ k, fuel = k + 1 := ⟨fuel - 1,by omega⟩
    obtain ⟨stopped,same⟩ := round_nil abi file process l s
    refine ⟨⟨answersFor_right abi file code 0 l,fun c value => by cases stopped.symm.trans value⟩,?_⟩
    rw [handedOut,List.append_nil,rounds,bind_run,answersFor,next_none stopped]
    rwa [same]
  | succ n ih =>
    obtain ⟨fuel,rfl⟩ : ∃ k, fuel = k + 1 := ⟨fuel - 1,by omega⟩
    have right := answersFor_right abi file code (n + 1) l
    rcases round : streamRound abi file code l with _ | ⟨data,next | result⟩
    · rw [handedOut_none round,List.append_nil,rounds,bind_run]
      rcases round_cases process s right with ⟨stopped | failed,same⟩ | ⟨data,after,round',-⟩
      · rw [next_none stopped,same]
        exact ⟨⟨right,fun c value => by cases stopped.symm.trans value⟩,known⟩
      · rw [next_some failed,same]
        exact ⟨⟨right,fun c value => by cases failed.symm.trans value⟩,known⟩
      · cases round.symm.trans round'
    · have answers : answersFor abi file code (n + 1) l = (if l.next_in.length = 0 then [(bufferSize : Int)] else []) ++
          codeOf code (fed file l) :: answersFor abi file code n next := by rw [answersFor,round]
      obtain ⟨t,known,goes⟩ := round_answered collect known round (answersFor abi file code n next)
      have fewer : (answersFor abi file code n next).length < fuel := by
        rw [answers,List.length_append,List.length_cons] at enough
        omega
      obtain ⟨guided,reached⟩ := ih next known fewer
      rw [← answers] at goes
      rw [handedOut_more round,← List.append_assoc,rounds,bind_run,goes,next_some rfl]
      refine ⟨⟨right,fun c value => ?_⟩,reached⟩
      rw [goes] at value ⊢
      obtain rfl := Sum.inl.inj (some.inj value)
      exact guided
    · have answers : answersFor abi file code (n + 1) l = (if l.next_in.length = 0 then [(bufferSize : Int)] else []) ++
          codeOf code (fed file l) :: [] := by rw [answersFor,round]
      obtain ⟨t,known,goes⟩ := round_answered collect known round []
      rw [← answers] at goes
      rw [handedOut_last round,rounds,bind_run,goes,next_some rfl]
      refine ⟨⟨right,fun c value => ?_⟩,known⟩
      rw [goes] at value
      cases value

/-! ## The data of a stored entry -/

/-- How much of a stored entry can be read: all of it, or the whole buffers before the file ends. -/
def readable (file : Bytes) (pos total : Nat) : Nat :=
  if total ≤ file.length - pos then total else bufferSize * ((file.length - pos) / bufferSize)

theorem readable_le {pos total k : Nat} (few : k ≤ total) (inside : k ≤ file.length - pos)
    (whole : k = total ∨ bufferSize ∣ k) : k ≤ readable file pos total := by
  unfold readable
  split
  · exact few
  · rcases whole with rfl | ⟨n,rfl⟩
    · omega
    · exact Nat.mul_le_mul_left _ ((Nat.le_div_iff_mul_le (by decide)).mpr (by rwa [Nat.mul_comm]))

theorem triple_collects (collect : Collects K process)
    (taken data : Bytes) (C : σ → Prop) :
    Triple (K taken) (process data) (fun ok t => ok = true ∧ K (taken ++ data) t) C := by
  intro s as known
  obtain ⟨t,run,known⟩ := collect taken data s known trivial
  rw [run]
  refine ⟨fun ok same => ?_,fun absent => by cases absent⟩
  obtain rfl := some.inj same
  exact ⟨rfl,known⟩
def Collected (K : Bytes → σ → Prop) (file : Bytes) (pos total : Nat) (t : σ) : Prop :=
  ∃ k ≤ readable file pos total, K ((file.drop pos).take k) t
/-- What has been collected before a round, in whole buffers until the last one. -/
def Reached (K : Bytes → σ → Prop) (file : Bytes) (pos total : Nat) (loop : Nat × Nat) (t : σ) : Prop :=
  ∃ k, K ((file.drop pos).take k) t ∧ k + loop.1 = total ∧ loop.2 = pos + k ∧ k ≤ file.length - pos ∧
    (k = total ∨ bufferSize ∣ k)
variable (abi file) in
theorem stored_collects (collect : Collects K process)
    (e : ZipEntry) (pos : Nat) :
    Triple (K []) (processStoredEntry abi file e pos process)
      (fun _ => Collected K file pos (unsigned abi.bits e.compLen))
      (Collected K file pos (unsigned abi.bits e.compLen)) := by
  refine triple_pre (stored_loop (I := fun k t => K ((file.drop pos).take k) t ∧ k ≤ unsigned abi.bits e.compLen ∧
      k ≤ file.length - pos ∧ (k = unsigned abi.bits e.compLen ∨ bufferSize ∣ k)) e pos
    (fun k count few inside size => ?_) (fun k t ⟨known,few,inside,whole⟩ => ?_) fun t ⟨known,few,inside,whole⟩ => ?_)
    fun t known => ⟨by simpa using known,Nat.zero_le _,Nat.zero_le _,.inr (Nat.dvd_zero _)⟩
  · refine triple_assume fun t ⟨known,_,_,buffers⟩ => ?_
    refine triple_conseq (triple_collects collect _ _ _) (fun u same => same ▸ known) (fun ok u collected => ?_) fun _ h => h
    rw [if_pos collected.1,List.take_add]
    refine ⟨collected.2,few,inside,?_⟩
    rcases size with last | full
    · exact .inl last
    · refine buffers.imp (fun all => by omega) fun divides => ?_
      rw [full]
      exact (Nat.dvd_add_right divides).mpr (Nat.dvd_refl _)
  · exact ⟨⟨k,readable_le few inside whole,known⟩,k,readable_le few inside whole,known⟩
  · exact ⟨_,readable_le few inside whole,known⟩

private theorem readable_eq {pos total k : Nat} (inside : k ≤ file.length - pos) (buffers : bufferSize ∣ k)
    (short : file.length - pos < total) (full : file.length - pos < k + bufferSize) : readable file pos total = k := by
  obtain ⟨n,rfl⟩ := buffers
  rw [readable,if_neg (by omega)]
  congr 1
  refine Nat.div_eq_of_lt_le ?_ ?_
  · rwa [Nat.mul_comm]
  · rw [Nat.succ_mul,Nat.mul_comm]
    exact full
variable (abi file) in
theorem stored_can {fits : Nat → Prop}
    (accept : Accepts K fits process) (e : ZipEntry) (pos : Nat)
    (fit : ∀ n, 0 < n → n ≤ readable file pos (unsigned abi.bits e.compLen) → fits n) :
    Can (K []) (processStoredEntry abi file e pos process) fun ok t =>
      K ((file.drop pos).take (readable file pos (unsigned abi.bits e.compLen))) t ∧
        ok = decide (unsigned abi.bits e.compLen ≤ file.length - pos) := by
  unfold processStoredEntry
  generalize unsigned abi.bits e.compLen = total at fit ⊢
  refine can_pre (can_iterate (I := Reached K file pos total) (fun loop => loop.1) ?_ (total,pos)) ?_
  · rintro ⟨left,place⟩ t ⟨k,known,sum,reached,inside,buffers⟩
    subst reached
    by_cases more : left > 0
    · generalize chunk : (if left > bufferSize then bufferSize else left) = count
      have positive : 0 < count ∧ count ≤ left ∧ count ≤ bufferSize ∧ (count = left ∨ count = bufferSize) := by
        have : 0 < bufferSize := by decide
        split at chunk <;> omega
      have length : ((file.drop (pos + k)).take count).length = min count (file.length - (pos + k)) := by
        rw [List.length_take,List.length_drop]
      by_cases whole : count ≤ file.length - (pos + k)
      · have size : ((file.drop pos).take k).length = k := by
          rw [List.length_take,List.length_drop]
          omega
        have next : k + count = total ∨ bufferSize ∣ k + count := by
          rcases positive.2.2.2 with last | full
          · exact .inl (by omega)
          · refine buffers.imp (fun all => by omega) fun divides => ?_
            rw [full]
            exact (Nat.dvd_add_right divides).mpr (Nat.dvd_refl _)
        have fitting : fits (((file.drop pos).take k).length + ((file.drop (pos + k)).take count).length) := by
          rw [size,length,Nat.min_eq_left whole]
          exact fit _ (by omega) (readable_le (by omega) (by omega) next)
        obtain ⟨u,run,known⟩ := accept _ _ t known fitting
        rw [← List.drop_drop,← List.take_add] at known
        refine ⟨[(bufferSize : Int)],.inl (left - count,pos + k + count),u,fun rest => ?_,by simp,?_,?_⟩
        · dsimp only
          rw [if_pos more,chunk,List.singleton_append,bind_run,ask_run,next_some rfl,
            readAt_bufferSize positive.2.2.1,length,Nat.min_eq_left whole,if_neg (by omega),bind_run,run,
            next_some rfl]
          rfl
        · omega
        · exact ⟨k + count,known,by dsimp only; omega,by dsimp only; omega,by omega,next⟩
      · have missing : k ≠ total := by omega
        have same : readable file pos total = k :=
          readable_eq inside (buffers.resolve_left missing) (by omega) (by omega)
        refine ⟨[(bufferSize : Int)],.inr false,t,fun rest => ?_,?_⟩
        · dsimp only
          rw [if_pos more,chunk,List.singleton_append,bind_run,ask_run,next_some rfl,
            readAt_bufferSize positive.2.2.1,length,if_pos (.inr (by omega))]
          rfl
        · refine ⟨?_,(decide_eq_false (by omega)).symm⟩
          rwa [same]
    · obtain rfl : total = k := by omega
      refine ⟨[],.inr true,t,fun rest => ?_,?_⟩
      · dsimp only
        rw [if_neg more]
        rfl
      · have all : readable file pos total = total := if_pos inside
        refine ⟨?_,(decide_eq_true inside).symm⟩
        rwa [all]
  · intro t known
    exact ⟨0,by simpa using known,by simp,by simp,Nat.zero_le _,.inr (Nat.dvd_zero _)⟩

end

end Recovery.ZipStreams
