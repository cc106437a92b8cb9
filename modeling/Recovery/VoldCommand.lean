import Mathlib.Logic.Function.Basic
import Recovery.Machines
import Recovery.Memory

/-!
`vold_command` of `event_loop.cpp`, called by several threads, with the monitor that takes in vold's
answers. All calls share one count of the commands in flight and one result: a call that waits takes
the result that is there when nothing is in flight any more.
-/
namespace Recovery.VoldCommand
open Memory Machines List Option

/-! ## The model -/

def quoted (arg : Bytes) (last : Bool) : Bytes :=
  (if 32 ∈ arg then [34] ++ arg ++ [34] else arg) ++ (if last then [] else [32])

/-- The loop that appends the arguments to `final_cmd`; none if they do not fit its 255 bytes. -/
def appendArgs : Bytes → List Bytes → Option Bytes
  | cmd, [] => some cmd
  | cmd, arg :: args =>
    let cmd := cmd ++ quoted arg args.isEmpty
    if cmd.length ≥ 255 then none else appendArgs cmd args
def finalCmd (command : List Bytes) : Option Bytes := appendArgs (ascii "0 ") command

/-- What is known of a call: its parameter `wait`, whether the command was written, vold's answer to it
    and the value it returned. -/
structure Record where
  wait : Bool
  wrote : Bool
  answer : Option Int
  returned : Option Int
  deriving DecidableEq, Repr

/-- The static variables, the commands that vold has still to answer, the calls in
    `pthread_cond_wait`, those that it has woken but that have not got the mutex yet, and a record of
    each call. -/
structure State (Call : Type) where
  inflight : Int
  result : Int
  sent : List Call
  waiters : List Call
  woken : List Call
  calls : Call → Option Record

/-- The parts of the program that run with the mutex held, and a wake-up without a signal. -/
inductive Input (Call : Type)
  | call (c : Call) (command : List Bytes) (wait : Bool) (wrote : Bool)
  | answer (code : Int) (signalled : Option Call)
  | spurious (c : Call)
  | resume (c : Call)
  deriving DecidableEq, Repr

section Steps
variable {Call : Type} [DecidableEq Call] (commandOkay : Int)

/-- The value that a call returns for its variable `ret`. -/
def value (ret : Int) : Int := if ret = commandOkay then 0 else -1

/-- `vold_command` up to its end or its first wait. -/
def call (s : State Call) (c : Call) (command : List Bytes) (wait wrote : Bool) : State Call :=
  match finalCmd command with
  | none => { s with calls := Function.update s.calls c (some ⟨wait, false, none, some (-1)⟩) }
  | some _ =>
    let ret : Int := if wrote then 0 else -1
    let s : State Call := { s with inflight := s.inflight + 1, sent := if wrote then s.sent ++ [c] else s.sent }
    if wait ∧ s.inflight ≠ 0 then
      { s with
        waiters := s.waiters ++ [c]
        calls := Function.update s.calls c (some ⟨wait, wrote, none, none⟩) }
    else { s with calls := Function.update s.calls c (some ⟨wait, wrote, none, some (value commandOkay ret)⟩) }

/-- `pthread_cond_signal`: it wakes a call, if there is one. -/
def signal (s : State Call) : Option Call → Option (State Call)
  | none => if s.waiters = [] then some s else none
  | some c => if c ∈ s.waiters then some { s with waiters := s.waiters.erase c, woken := s.woken ++ [c] } else none

/-- A response in `monitor`: vold's answer to the first command it has not answered yet. -/
def answer (s : State Call) (code : Int) (signalled : Option Call) : Option (State Call) :=
  match s.sent with
  | [] => none
  | c :: rest =>
    let s : State Call := { s with
      sent := rest
      calls := Function.update s.calls c ((s.calls c).map fun r => { r with answer := some code }) }
    if 200 ≤ code ∧ code < 600 then signal { s with result := code, inflight := s.inflight - 1 } signalled
    else some s

/-- A call that was woken goes round its loop. -/
def resume (s : State Call) (c : Call) : State Call :=
  let s : State Call := { s with woken := s.woken.erase c }
  if s.inflight ≠ 0 then { s with waiters := s.waiters ++ [c] }
  else
    { s with
      calls := Function.update s.calls c
        ((s.calls c).map fun r => { r with returned := some (value commandOkay s.result) }) }

/-- One step; none when it is not possible. A call is made once. -/
def step (s : State Call) : Input Call → Option (State Call)
  | .call c command wait wrote => if s.calls c = none then some (call commandOkay s c command wait wrote) else none
  | .answer code signalled => answer s code signalled
  | .spurious c => if c ∈ s.waiters then signal s (some c) else none
  | .resume c => if c ∈ s.woken then some (resume commandOkay s c) else none

def start : State Call := ⟨0, 0, [], [], [], fun _ => none⟩

/-! ## Calls one after the other -/

/-- vold answers with codes from 200 to 599. -/
def InRange : Input Call → Prop
  | .answer code _ => 200 ≤ code ∧ code < 600
  | _ => True

/-- A call is made while no other one waits, and its write works. -/
def Alone (s : State Call) : Input Call → Prop
  | .call _ _ _ wrote => s.waiters = [] ∧ s.woken = [] ∧ wrote = true
  | _ => True

/-- A call that waits: its command is the last one in flight, or all answers have come, its own as the
    last one, and it is awake. -/
structure Waits (s : State Call) (c : Call) (r : Record) : Prop where
  record : s.calls c = some r
  wait : r.wait
  running : r.returned = none
  place : ((∃ front, s.sent = front ++ [c]) ∧ (s.waiters = [c] ∧ s.woken = [] ∨ s.waiters = [] ∧ s.woken = [c])) ∨
    (s.sent = [] ∧ r.answer = some s.result ∧ s.waiters = [] ∧ s.woken = [c])

/-- The call that waited returns the verdict on its own command. -/
def Right (s : State Call) (c : Call) (r : Record) : Prop :=
  r.wait → ∀ v, r.returned = some v → c ∉ s.sent ∧ (v = 0 ↔ r.answer = some commandOkay)

structure Good (s : State Call) : Prop where
  count : s.inflight = s.sent.length
  known : ∀ c ∈ s.sent, s.calls c ≠ none
  nodup : s.sent.Nodup
  waiting : (s.waiters = [] ∧ s.woken = []) ∨ ∃ c r, Waits s c r
  right : ∀ c r, s.calls c = some r → Right commandOkay s c r
  refused : ∀ c r, s.calls c = some r → r.wrote = false → r.returned.isSome

variable {commandOkay}

private theorem value_eq_zero {ret : Int} : value commandOkay ret = 0 ↔ ret = commandOkay := by
  unfold value
  split
  · simpa
  · simpa

omit [DecidableEq Call] in
private theorem start_good : Good commandOkay (start : State Call) where
  count := rfl
  known c member := by cases member
  nodup := nodup_nil
  waiting := .inl ⟨rfl,rfl⟩
  right c r found := by cases found
  refused c r found := by cases found

variable {t : State Call} {s : State Call} {c : Call} {signalled : Option Call}

theorem good_record {new : Record} (good : Good commandOkay s)
    (calls : t.calls = Function.update s.calls c (some new)) (count : t.inflight = t.sent.length)
    (sent : ∀ d ∈ t.sent, d ≠ c → d ∈ s.sent) (nodup : t.sent.Nodup)
    (waiting : (t.waiters = [] ∧ t.woken = []) ∨ ∃ c r, Waits t c r) (right : Right commandOkay t c new)
    (refused : new.wrote = false → new.returned.isSome) : Good commandOkay t := by
  have own : t.calls c = some new := by rw [calls,Function.update_self]
  have others (d : Call) (other : d ≠ c) : t.calls d = s.calls d := by rw [calls,Function.update_of_ne other]
  refine ⟨count,?_,nodup,waiting,?_,?_⟩
  · intro d member
    by_cases same : d = c
    · rw [same,own]
      simp
    · rw [others d same]
      exact good.known d (sent d member same)
  · intro d r found
    by_cases same : d = c
    · subst same
      obtain rfl := some.inj (own.symm.trans found)
      exact right
    · rw [others d same] at found
      intro wait v returned
      obtain ⟨absent,verdict⟩ := good.right d r found wait v returned
      exact ⟨fun member => absent (sent d member same),verdict⟩
  · intro d r found
    by_cases same : d = c
    · subst same
      obtain rfl := some.inj (own.symm.trans found)
      exact refused
    · rw [others d same] at found
      exact good.refused d r found

private theorem call_good {command : List Bytes} {wait : Bool} (good : Good commandOkay s)
    (fresh : s.calls c = none) (waiters : s.waiters = []) (woken : s.woken = []) :
    Good commandOkay (call commandOkay s c command wait true) := by
  have absent : c ∉ s.sent := fun member => good.known c member fresh
  have count := good.count
  have longer : (s.sent ++ [c]).Nodup := by
    refine nodup_append.mpr ⟨good.nodup,by simp,?_⟩
    intro d inside e last same
    rw [same,mem_singleton.mp last] at inside
    exact absent inside
  have member (d : Call) (found : d ∈ s.sent ++ [c]) (other : d ≠ c) : d ∈ s.sent := by simpa [other] using found
  unfold call
  split
  · -- the command is too long
    refine good_record good rfl count (fun d found _ => found) good.nodup (.inl ⟨waiters,woken⟩) ?_ fun _ => rfl
    intro _ v returned
    obtain rfl := some.inj returned
    exact ⟨absent,by simp⟩
  · simp only [if_true]
    split
    · rename_i waits
      refine good_record good rfl (by simp [count]) member longer (.inr ⟨c,_,Function.update_self ..,waits.1,rfl,?_⟩) ?_ ?_
      · exact .inl ⟨⟨s.sent,rfl⟩,.inl ⟨by simp [waiters],woken⟩⟩
      · intro _ v returned
        cases returned
      · intro failed
        cases failed
    · rename_i goesOn
      refine good_record good rfl (by simp [count]) member longer (.inl ⟨waiters,woken⟩) ?_ fun _ => rfl
      intro wait
      refine (goesOn ⟨wait,?_⟩).elim
      omega

theorem signal_cases (done : signal s signalled = some t) :
    (s.waiters = [] ∧ t = s) ∨ ∃ c ∈ s.waiters, t = { s with waiters := s.waiters.erase c, woken := s.woken ++ [c] } := by
  cases signalled with
  | none =>
    simp only [signal] at done
    split at done
    · rename_i empty
      exact .inl ⟨empty,(some.inj done).symm⟩
    · cases done
  | some c =>
    simp only [signal] at done
    split at done
    · rename_i member
      exact .inr ⟨c,member,(some.inj done).symm⟩
    · cases done

theorem signal_good (good : Good commandOkay s)
    (done : signal s signalled = some t) : Good commandOkay t := by
  rcases signal_cases done with ⟨_,rfl⟩ | ⟨c,member,rfl⟩
  · exact good
  refine ⟨good.count,good.known,good.nodup,?_,good.right,good.refused⟩
  rcases good.waiting with ⟨none,_⟩ | ⟨d,r,waits⟩
  · rw [none] at member
    cases member
  obtain ⟨record,wait,running,place⟩ := waits
  right
  refine ⟨d,r,record,wait,running,?_⟩
  rcases place with ⟨last,⟨waiters,woken⟩ | ⟨waiters,woken⟩⟩ | ⟨_,_,waiters,_⟩
  · rw [waiters] at member
    obtain rfl := mem_singleton.mp member
    exact .inl ⟨last,.inr ⟨by simp [waiters],by simp [woken]⟩⟩
  · rw [waiters] at member
    cases member
  · rw [waiters] at member
    cases member

private theorem resume_good (good : Good commandOkay s) (awake : c ∈ s.woken) :
    Good commandOkay (resume commandOkay s c) := by
  rcases good.waiting with ⟨_,none⟩ | ⟨d,r,record,wait,running,place⟩
  · rw [none] at awake
    cases awake
  have count := good.count
  have only : s.waiters = [] ∧ s.woken = [d] := by
    rcases place with ⟨_,⟨_,none⟩ | only⟩ | ⟨_,_,only⟩
    · rw [none] at awake
      cases awake
    · exact only
    · exact only
  obtain ⟨waiters,woken⟩ := only
  rw [woken] at awake
  obtain rfl := mem_singleton.mp awake
  unfold resume
  simp only
  split
  · rename_i more
    refine ⟨count,good.known,good.nodup,.inr ⟨c,r,record,wait,running,?_⟩,good.right,good.refused⟩
    rcases place with ⟨last,_⟩ | ⟨empty,_⟩
    · exact .inl ⟨last,.inl ⟨by simp [waiters],by simp [woken]⟩⟩
    · rw [empty] at count
      exact (more count).elim
  · rename_i nothing
    have empty : s.sent = [] := by
      apply length_eq_zero_iff.mp
      omega
    have own : r.answer = some s.result := by
      rcases place with ⟨⟨front,last⟩,_⟩ | ⟨_,own,_⟩
      · rw [last] at empty
        simp at empty
      · exact own
    have calls : Function.update s.calls c
        ((s.calls c).map fun r => { r with returned := some (value commandOkay s.result) }) =
        Function.update s.calls c (some { r with returned := some (value commandOkay s.result) }) := by
      rw [record]
      rfl
    refine good_record good calls count (fun d member _ => member) good.nodup (.inl ⟨waiters,by simp [woken]⟩) ?_ fun _ => rfl
    intro _ v returned
    obtain rfl := some.inj returned
    refine ⟨by simp [empty],?_⟩
    rw [value_eq_zero,own]
    simp

def answered (s : State Call) (c : Call) (rest : List Call) (code : Int) (r : Record) : State Call where
  inflight := s.inflight - 1
  result := code
  sent := rest
  waiters := s.waiters
  woken := s.woken
  calls := Function.update s.calls c (some { r with answer := some code })

private theorem answer_good {code : Int} (good : Good commandOkay s)
    (range : 200 ≤ code ∧ code < 600) (done : answer s code signalled = some t) : Good commandOkay t := by
  unfold answer at done
  split at done
  · cases done
  rename_i c rest sent
  have inside : c ∈ s.sent := by simp [sent]
  obtain ⟨rc,known⟩ := ne_none_iff_exists'.mp (good.known c inside)
  have nodup := good.nodup
  rw [sent,nodup_cons] at nodup
  simp only [if_pos range,known,map_some] at done
  have count : (answered s c rest code rc).inflight = rest.length := by
    have before := good.count
    rw [sent,length_cons] at before
    simp only [answered]
    omega
  have member (d : Call) (found : d ∈ rest) (_ : d ≠ c) : d ∈ s.sent := by simp [sent,found]
  -- a call whose command is in flight has not returned
  have right {u : State Call} : Right commandOkay u c { rc with answer := some code } := by
    intro wait v returned
    exact ((good.right c rc known wait v returned).1 inside).elim
  have refused := good.refused c rc known
  change signal (answered s c rest code rc) signalled = some t at done
  rcases good.waiting with free | ⟨d,r,record,wait,running,⟨⟨front,last⟩,asleep⟩ | ⟨empty,_⟩⟩
  · exact signal_good (good_record good rfl count member nodup.2 (.inl free) right refused) done
  · rw [sent] at last
    cases front with
    | nil =>
      -- the last answer is for the call that waits
      obtain ⟨rfl,rfl⟩ := cons.inj last
      obtain rfl := some.inj (known.symm.trans record)
      have own : (answered s c [] code rc).calls c = some { rc with answer := some code } := Function.update_self ..
      rcases signal_cases done with ⟨none,rfl⟩ | ⟨w,waits,rfl⟩
      · rcases asleep with ⟨waiters,_⟩ | ⟨waiters,woken⟩
        · rw [show (answered s c [] code rc).waiters = s.waiters from rfl,waiters] at none
          cases none
        · refine good_record good rfl count member nodup.2 (.inr ⟨c,_,own,wait,running,.inr ?_⟩) right refused
          exact ⟨rfl,rfl,waiters,woken⟩
      · rcases asleep with ⟨waiters,woken⟩ | ⟨waiters,_⟩
        · rw [show (answered s c [] code rc).waiters = s.waiters from rfl,waiters] at waits
          obtain rfl := mem_singleton.mp waits
          refine good_record good rfl count member nodup.2 (.inr ⟨w,_,own,wait,running,.inr ?_⟩) right refused
          exact ⟨rfl,rfl,by simp [answered,waiters],by simp [answered,woken]⟩
        · rw [show (answered s c [] code rc).waiters = s.waiters from rfl,waiters] at waits
          cases waits
    | cons first front =>
      obtain ⟨rfl,rfl⟩ := cons.inj last
      have other : d ≠ c := by
        rintro rfl
        exact nodup.1 (by simp)
      have still : (answered s c (front ++ [d]) code rc).calls d = some r := by
        simp only [answered,Function.update_of_ne other,record]
      refine signal_good (good_record good rfl count member nodup.2 (.inr ⟨d,r,still,wait,running,.inl ?_⟩) right refused) done
      exact ⟨⟨front,rfl⟩,asleep⟩
  · rw [sent] at empty
    cases empty

private theorem step_good {i : Input Call} (good : Good commandOkay s) (cond : InRange i ∧ Alone s i)
    (done : step commandOkay s i = some t) : Good commandOkay t := by
  obtain ⟨range,alone⟩ := cond
  cases i with
  | call c command wait wrote =>
    obtain ⟨waiters,woken,rfl⟩ := alone
    simp only [step] at done
    split at done
    · rename_i fresh
      obtain rfl := some.inj done
      exact call_good good fresh waiters woken
    · cases done
  | answer code signalled => exact answer_good good range done
  | spurious c =>
    simp only [step] at done
    split at done
    · exact signal_good good done
    · cases done
  | resume c =>
    simp only [step] at done
    split at done
    · rename_i awake
      obtain rfl := some.inj done
      exact resume_good good awake
    · cases done

/-- A call that waits is awake when nothing is in flight, and then returns the verdict on its own
    command. -/
theorem good_resumes (good : Good commandOkay s) (waits : c ∈ s.waiters ∨ c ∈ s.woken)
    (empty : s.sent = []) : ∃ t code, step commandOkay s (.resume c) = some t ∧
      (s.calls c).bind Record.answer = some code ∧ (t.calls c).bind Record.returned = some (value commandOkay code) := by
  rcases good.waiting with ⟨waiters,woken⟩ | ⟨d,r,record,_,_,⟨⟨front,last⟩,_⟩ | ⟨_,own,waiters,woken⟩⟩
  · rw [waiters,woken] at waits
    simp at waits
  · rw [empty] at last
    simp at last
  rw [waiters,woken] at waits
  obtain rfl : c = d := by simpa using waits
  have idle : s.inflight = 0 := by
    rw [good.count,empty]
    rfl
  refine ⟨resume commandOkay s c,s.result,?_,by simp [record,own],?_⟩
  · simp only [step]
    rw [if_pos (by simp [woken])]
  · simp [resume,idle,record]

/-- In every run in which calls are made only while no other one waits, and writes work, a call that
    waited returned 0 exactly if the answer to its own command was CommandOkay, and a call that waits
    returns once all commands are answered. -/
theorem calls_right {inputs : List (Input Call)} {s : State Call}
    (alone : Meets (step commandOkay) (fun s i => InRange i ∧ Alone s i) start inputs)
    (runs : run (step commandOkay) start inputs = some s) :
    (∀ c r v, s.calls c = some r → r.wait → r.returned = some v → (v = 0 ↔ r.answer = some commandOkay)) ∧
    (∀ c r, s.calls c = some r → r.wrote = false → r.returned.isSome) ∧
    (∀ c, c ∈ s.waiters ∨ c ∈ s.woken → s.sent = [] → ∃ t code, step commandOkay s (.resume c) = some t ∧
      (s.calls c).bind Record.answer = some code ∧ (t.calls c).bind Record.returned = some (value commandOkay code)) := by
  have good := run_keeps step_good start_good alone runs
  exact ⟨fun c r v found wait returned => (good.right c r found wait v returned).2, good.refused,
    fun c => good_resumes good⟩

/-! ## Calls at the same time -/

/-- The calls that have not returned are those that sleep or are awake, each once. -/
structure Tracked (s : State Call) : Prop where
  once : (s.waiters ++ s.woken).Nodup
  queued : ∀ c, c ∈ s.waiters ++ s.woken ↔ ∃ r, s.calls c = some r ∧ r.returned = none

theorem signal_tracked (tracked : Tracked s)
    (done : signal s signalled = some t) : Tracked t := by
  rcases signal_cases done with ⟨_,rfl⟩ | ⟨c,member,rfl⟩
  · exact tracked
  have moved : (s.waiters.erase c ++ (s.woken ++ [c])).Perm (s.waiters ++ s.woken) := by
    rw [← append_assoc]
    exact (perm_append_singleton c _).trans ((perm_cons_erase member).symm.append_right s.woken)
  exact ⟨moved.nodup_iff.mpr tracked.once,fun d => moved.mem_iff.trans (tracked.queued d)⟩

/-- A call gets a new record and is queued, or not, as the record says. -/
theorem tracked_record {r : Record} {waiters woken : List Call} {inflight result : Int}
    {sent : List Call} (tracked : Tracked s) (once : (waiters ++ woken).Nodup)
    (others : ∀ d ≠ c, d ∈ waiters ++ woken ↔ d ∈ s.waiters ++ s.woken) (own : c ∈ waiters ++ woken ↔ r.returned = none) :
    Tracked ⟨inflight,result,sent,waiters,woken,Function.update s.calls c (some r)⟩ := by
  refine ⟨once,fun d => ?_⟩
  by_cases same : d = c
  · subst same
    simpa using own
  · simpa [Function.update_of_ne same] using (others d same).trans (by simpa using tracked.queued d)

private theorem call_tracked {command : List Bytes} {wait wrote : Bool} (tracked : Tracked s)
    (fresh : s.calls c = none) : Tracked (call commandOkay s c command wait wrote) := by
  have absent : c ∉ s.waiters ++ s.woken := by simp [tracked.queued,fresh]
  unfold call
  split
  · exact tracked_record tracked tracked.once (fun _ _ => Iff.rfl) (by simp [absent])
  dsimp only
  split
  · refine tracked_record tracked ?_ (fun d other => by simp [other]) (by simp)
    have moved : (s.waiters ++ [c] ++ s.woken).Perm (c :: (s.waiters ++ s.woken)) := by simp
    exact moved.nodup_iff.mpr (nodup_cons.mpr ⟨absent,tracked.once⟩)
  · exact tracked_record tracked tracked.once (fun _ _ => Iff.rfl) (by simp [absent])

private theorem answer_tracked {code : Int} (tracked : Tracked s)
    (done : answer s code signalled = some t) : Tracked t := by
  unfold answer at done
  split at done
  · cases done
  rename_i c rest sent
  have queued (d : Call) : d ∈ s.waiters ++ s.woken ↔ ∃ r,
      Function.update s.calls c ((s.calls c).map fun r => { r with answer := some code }) d = some r ∧ r.returned = none := by
    rw [tracked.queued]
    by_cases same : d = c
    · subst same
      cases s.calls d <;> simp
    · rw [Function.update_of_ne same]
  dsimp only at done
  split at done
  · refine signal_tracked ?_ done
    exact ⟨tracked.once,queued⟩
  · cases done
    exact ⟨tracked.once,queued⟩

theorem resume_tracked (tracked : Tracked s) (awake : c ∈ s.woken) :
    Tracked (resume commandOkay s c) := by
  obtain ⟨r,known,running⟩ := (tracked.queued c).mp (mem_append_right _ awake)
  have back : (s.waiters ++ c :: s.woken.erase c).Perm (s.waiters ++ s.woken) :=
    (perm_cons_erase awake).symm.append_left s.waiters
  unfold resume
  dsimp only
  split
  · rw [append_cons] at back
    exact ⟨back.nodup_iff.mpr tracked.once,fun d => back.mem_iff.trans (tracked.queued d)⟩
  · have once := nodup_cons.mp (perm_middle.nodup_iff.mp (back.nodup_iff.mpr tracked.once))
    rw [known]
    refine tracked_record tracked once.2 (fun d other => ?_) (by simp [once.1])
    rw [← back.mem_iff]
    simp [other]

theorem step_tracked {i : Input Call} (tracked : Tracked s) (done : step commandOkay s i = some t) :
    Tracked t := by
  cases i with
  | call c command wait wrote =>
    obtain ⟨fresh,⟨⟩⟩ := ite_none_right_eq_some.mp done
    exact call_tracked tracked fresh
  | answer code signalled => exact answer_tracked tracked done
  | spurious c => exact signal_tracked tracked (ite_none_right_eq_some.mp done).2
  | resume c =>
    obtain ⟨awake,⟨⟩⟩ := ite_none_right_eq_some.mp done
    exact resume_tracked tracked awake

/-- A step after which `inflight` is one more than it should be: a command that is not written is counted,
    and a response that is not in vold's range is an answer that is not. -/
def Lost : Input Call → Bool
  | .call _ command _ wrote => (finalCmd command).isSome && !wrote
  | .answer code _ => !(200 ≤ code && code < 600)
  | _ => false

theorem signal_count (done : signal s signalled = some t) : t.inflight = s.inflight ∧ t.sent = s.sent := by
  rcases signal_cases done with ⟨_,rfl⟩ | ⟨_,_,rfl⟩
  all_goals exact ⟨rfl,rfl⟩

theorem call_count {command : List Bytes} {wait wrote : Bool} :
    (call commandOkay s c command wait wrote).inflight - (call commandOkay s c command wait wrote).sent.length =
      s.inflight - s.sent.length + (Lost (.call c command wait wrote)).toNat := by
  unfold call
  cases fits : finalCmd command with
  | none => simp [Lost,fits]
  | some cmd =>
    dsimp only
    split
    all_goals
      cases wrote
      · simp [Lost,fits]
        omega
      · simp [Lost,fits]

theorem answer_count {code : Int} (done : answer s code signalled = some t) :
    t.inflight - t.sent.length = s.inflight - s.sent.length + (Lost (.answer code signalled)).toNat := by
  unfold answer at done
  split at done
  · cases done
  rename_i c rest sent
  dsimp only at done
  split at done
  · rename_i range
    obtain ⟨count,same⟩ := signal_count done
    simp [Lost,range,sent,count,same]
    omega
  · rename_i outside
    cases done
    have lost : Lost (.answer code signalled) = true := by
      simp [Lost]
      omega
    rw [lost,sent,length_cons,Bool.toNat_true]
    dsimp only
    omega

theorem step_count {i : Input Call} (done : step commandOkay s i = some t) :
    t.inflight - t.sent.length = s.inflight - s.sent.length + (Lost i).toNat := by
  cases i with
  | call c command wait wrote =>
    obtain ⟨_,⟨⟩⟩ := ite_none_right_eq_some.mp done
    exact call_count
  | answer code signalled => exact answer_count done
  | spurious c =>
    obtain ⟨count,same⟩ := signal_count (ite_none_right_eq_some.mp done).2
    simp [Lost,count,same]
  | resume c =>
    obtain ⟨_,⟨⟩⟩ := ite_none_right_eq_some.mp done
    unfold resume
    dsimp only
    split
    all_goals simp [Lost]

theorem run_count {inputs : List (Input Call)} (runs : run (step commandOkay) s inputs = some t) :
    t.inflight - t.sent.length = s.inflight - s.sent.length + inputs.countP Lost := by
  induction inputs generalizing s with
  | nil =>
    cases runs
    simp
  | cons i rest ih =>
    obtain ⟨u,first,runs⟩ := run_cons.mp runs
    rw [ih runs,step_count first,countP_cons]
    cases Lost i
    · simp
    · simp
      omega

/-- In every run, whatever calls overlap, writes fail and answers come, a call that waited and goes on
    returns exactly if every command that was written is answered, no write failed before, and every
    answer was in vold's range. -/
theorem calls_tracked {inputs : List (Input Call)} {s : State Call} (runs : run (step commandOkay) start inputs = some s)
    (c : Call) (t : State Call) (done : step commandOkay s (.resume c) = some t) :
    ((t.calls c).bind Record.returned).isSome ↔ s.sent = [] ∧ inputs.countP Lost = 0 := by
  have tracked : Tracked s := run_invariant step_tracked ⟨by simp [start],by simp [start]⟩ runs
  have count : s.inflight - s.sent.length = inputs.countP Lost := by simpa [start] using run_count runs
  obtain ⟨awake,⟨⟩⟩ := ite_none_right_eq_some.mp done
  obtain ⟨r,known,running⟩ := (tracked.queued c).mp (mem_append_right _ awake)
  by_cases idle : s.inflight = 0
  · have both : s.sent.length = 0 ∧ inputs.countP Lost = 0 := by omega
    simp [resume,idle,known,length_eq_zero_iff.mp both.1,both.2]
  · have left : ¬ (s.sent = [] ∧ inputs.countP Lost = 0) := by
      rintro ⟨empty,none⟩
      rw [empty,none] at count
      exact idle (by simpa using count)
    refine iff_of_false ?_ left
    simp [resume,idle,known,running]

end Steps

def oneByOne : List (Input Nat) :=
  [.call 0 [ascii "volume", ascii "list"] true true, .answer 200 (some 0), .resume 0,
    .call 1 [ascii "volume", ascii "mount", ascii "/my card"] true true, .answer 400 (some 1), .resume 1]

instance {Call : Type} : ∀ i : Input Call, Decidable (InRange i)
  | .call _ _ _ _ => .isTrue trivial
  | .answer _ _ => inferInstanceAs (Decidable (_ ∧ _))
  | .spurious _ => .isTrue trivial
  | .resume _ => .isTrue trivial
instance {Call : Type} [DecidableEq Call] (s : State Call) : ∀ i, Decidable (Alone s i)
  | .call _ _ _ _ => inferInstanceAs (Decidable (_ ∧ _))
  | .answer _ _ => .isTrue trivial
  | .spurious _ => .isTrue trivial
  | .resume _ => .isTrue trivial

theorem oneByOne_right : ∃ s, run (step 200) start oneByOne = some s ∧
    (s.calls 0).bind Record.returned = some 0 ∧ (s.calls 1).bind Record.returned = some (-1) ∧
    ∀ c r v, s.calls c = some r → r.wait → r.returned = some v → (v = 0 ↔ r.answer = some 200) := by
  have alone : Meets (step 200) (fun s i => InRange i ∧ Alone s i) start oneByOne := by decide
  obtain ⟨s, runs, first, second⟩ : ∃ s, run (step 200) start oneByOne = some s ∧
      (s.calls 0).bind Record.returned = some 0 ∧ (s.calls 1).bind Record.returned = some (-1) :=
    ⟨_, rfl, by decide, by decide⟩
  exact ⟨s, runs, first, second, (calls_right alone runs).1⟩
/-- Two calls at a time, in the order of the mutex: both wait, the first one is woken too early, waits again,
    and may go on after the second answer. In the second run the first command is not written, and the
    call that did get its answer waits on. -/
def overlapping (wrote : Bool) : List (Input Nat) :=
  [.call 0 [ascii "volume"] true wrote, .call 1 [ascii "volume"] true true] ++
    (if wrote then [.answer 400 (some 0), .resume 0, .answer 200 (some 0)] else [.answer 200 (some 1)])
theorem overlapping_tracked :
    (∃ s t, run (step 200) start (overlapping true) = some s ∧ s.waiters = [1] ∧ step 200 s (.resume 0) = some t ∧
      ((t.calls 0).bind Record.returned).isSome) ∧
    ∃ s t, run (step 200) start (overlapping false) = some s ∧ s.sent = [] ∧ step 200 s (.resume 1) = some t ∧
      (t.calls 1).bind Record.returned = none := by
  constructor
  · obtain ⟨s,t,runs,asleep,none,done⟩ : ∃ s t, run (step 200) start (overlapping true) = some s ∧ s.waiters = [1] ∧
      s.sent = [] ∧ step 200 s (.resume 0) = some t := ⟨_,_,rfl,by decide,by decide,rfl⟩
    exact ⟨s,t,runs,asleep,done,(calls_tracked runs 0 t done).mpr ⟨none,by decide⟩⟩
  · obtain ⟨s,t,runs,none,done⟩ : ∃ s t, run (step 200) start (overlapping false) = some s ∧ s.sent = [] ∧
      step 200 s (.resume 1) = some t := ⟨_,_,rfl,by decide,rfl⟩
    refine ⟨s,t,runs,none,done,not_isSome_iff_eq_none.mp fun returned => ?_⟩
    exact absurd ((calls_tracked runs 1 t done).mp returned).2 (by decide)

/-- Two calls at a time: the first one's command fails, and it returns 0. A call whose write fails waits
    for an answer. -/
theorem together_wrong : (∃ s, run (step 200) (start : State Nat)
      [.call 0 [ascii "volume"] true true, .call 1 [ascii "volume"] true true, .answer 400 (some 0), .resume 0,
        .answer 200 (some 0), .resume 0] = some s ∧
      ∃ r, s.calls 0 = some r ∧ r.wait ∧ r.answer = some 400 ∧ r.returned = some 0) ∧
    ∃ s, run (step 200) (start : State Nat) [.call 0 [ascii "volume"] true false] = some s ∧ 0 ∈ s.waiters ∧ s.sent = [] :=
  ⟨⟨_, rfl, _, rfl, by decide, by decide, by decide⟩, ⟨_, rfl, by decide, by decide⟩⟩

end Recovery.VoldCommand
