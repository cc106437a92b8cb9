import Mathlib.Logic.Function.Basic
import Mathlib.Tactic.Common
import Recovery.Machines

/-!
The end of a transport (minadbd/transport.c). Its input and output threads each kick it and drop a
reference when they exit; others may kick it as well while it is referenced. The main thread frees it
when it reads what `remove_transport` wrote.
-/
namespace Recovery.TransportExit
open Machines

inductive Actor where
  | input
  | output
  | other (n : Nat)
  | main
  deriving DecidableEq, Repr

/-- Where an actor is: in front of `kick_transport`, at the test of `kicked` that takes no lock, at
    the section under the lock, at the call of `kick`, at `transport_unref`, or behind it all. -/
inductive Place where
  | before
  | testing
  | locking
  | kicking
  | leaving
  | gone
  deriving DecidableEq, Repr

inductive Call where
  | kick
  | close
  | remove
  deriving DecidableEq, Repr

structure State where
  kicked : Bool
  ref_count : Nat
  place : Actor → Place
  calls : List Call
  freed : Bool

def State.move (s : State) (a : Actor) (p : Place) : State := { s with place := Function.update s.place a p }

def transport_unref_locked (s : State) : State :=
  if s.ref_count - 1 = 0 then
    { s with
      ref_count := s.ref_count - 1
      kicked := true
      calls := s.calls ++ (if s.kicked then [] else [Call.kick]) ++ [.close, .remove] }
  else { s with ref_count := s.ref_count - 1 }

/-- The next step of a thread. Both threads of the transport come to `kick_transport` on all of their exit
    paths; the others call it only while there is a reference, and drop none. -/
def threadStep (s : State) (a : Actor) : Option State :=
  match s.place a with
  | .before => if a = .input ∨ a = .output ∨ 0 < s.ref_count then some (s.move a .testing) else none
  | .testing => some (s.move a (if s.kicked then .leaving else .locking))
  | .locking => if s.kicked then some (s.move a .leaving) else some ({ s with kicked := true }.move a .kicking)
  | .kicking => some ({ s with calls := s.calls ++ [Call.kick] }.move a .leaving)
  | .leaving => some ((if a = .input ∨ a = .output then transport_unref_locked s else s).move a .gone)
  | .gone => none

/-- The next step of an actor. `transport_registration_func` frees a transport that was removed; what a
    thread that is still at it then does is not defined. -/
def step (s : State) : Actor → Option State
  | .main => if .remove ∈ s.calls ∧ s.freed = false then some { s with freed := true } else none
  | a => if s.freed then none else threadStep s a

/-- A transport as it is registered, with both of its threads running. -/
def registered : State := ⟨false, 2, fun _ => .before, [], false⟩

def State.runs (s : State) (c : Call) : Nat := s.calls.count c

def held (s : State) : Nat :=
  (if s.place .input = .gone then 0 else 1) + if s.place .output = .gone then 0 else 1

/-- At most one actor is about to kick the transport, and then it was not kicked yet. -/
structure Inv (s : State) : Prop where
  alone : ∀ a b, s.place a = .kicking → s.place b = .kicking → a = b
  soon : ∀ a, s.place a = .kicking → s.kicked = true ∧ s.runs .kick = 0
  kicked : s.kicked = true → s.runs .kick = 1 ∨ ∃ a, s.place a = .kicking
  unkicked : s.kicked = false → s.runs .kick = 0
  leaving : ∀ a, s.place a = .leaving ∨ s.place a = .gone → s.kicked = true
  count : s.ref_count = held s
  closed : s.runs .close = if s.ref_count = 0 then 1 else 0
  removed : s.runs .remove = if s.ref_count = 0 then 1 else 0

theorem inv_registered : Inv registered := by
  constructor <;> simp [registered,State.runs,held]

variable {s t : State} {a : Actor}

theorem place_move (p : Place) (b : Actor) : (s.move a p).place b = if b = a then p else s.place b :=
  Function.update_apply ..

theorem step_cases (steps : step s a = some t) : (a = .main ∧ t = { s with freed := true }) ∨ threadStep s a = some t := by
  unfold step at steps
  split at steps <;> split_ifs at steps
  · exact .inl ⟨rfl,(Option.some.inj steps).symm⟩
  · exact .inr steps
private theorem inv_threadStep (inv : Inv s) (steps : threadStep s a = some t) : Inv t := by
  obtain ⟨alone,soon,kicked,unkicked,leaving,count,closed,removed⟩ := inv
  simp only [State.runs,held] at *
  cases here : s.place a
  all_goals simp only [threadStep,here] at steps
  case leaving =>
    -- the last thread finds the transport kicked, by itself or by another
    have found := leaving a (.inl here)
    simp only [transport_unref_locked,found,if_true,List.append_nil] at steps
    split_ifs at steps
    all_goals
      cases steps
      constructor <;> simp only [State.runs,held,place_move] <;> grind -linarith [State.move]
  all_goals
    try split_ifs at steps
    all_goals
      cases steps
      try constructor <;> simp only [State.runs,held,place_move] <;> grind -linarith [State.move]

theorem inv_step (inv : Inv s) (steps : step s a = some t) : Inv t := by
  rcases step_cases steps with ⟨-,rfl⟩ | moves
  · exact ⟨inv.alone,inv.soon,inv.kicked,inv.unkicked,inv.leaving,inv.count,inv.closed,inv.removed⟩
  · exact inv_threadStep inv moves

/-- The output thread and two others find `kicked` unset before it is set, and one of the others sets it;
    it kicks only after the transport is closed. -/
def crowded : List Actor :=
  [.other 0, .other 1, .output, .other 0, .other 1, .output, .other 1, .output, .output, .input, .input, .input, .other 1]
/-- Only the two threads have done anything, and their calls came in order. -/
structure Ordered (s : State) : Prop where
  inv : Inv s
  others : ∀ b, b ≠ .input → b ≠ .output → s.place b = .before
  calls : s.calls ∈ [[],[Call.kick],[.kick,.close,.remove]]

private theorem threadStep_place {b : Actor} (other : b ≠ a) (steps : threadStep s a = some t) : t.place b = s.place b := by
  cases here : s.place a <;> simp only [threadStep,here,transport_unref_locked] at steps
  case gone => cases steps
  all_goals
    try split_ifs at steps
    all_goals
      cases steps
      try simp [State.move,other]
private theorem ordered_step (ordered : Ordered s) (thread : a = .input ∨ a = .output) (steps : step s a = some t) : Ordered t := by
  obtain ⟨inv,others,calls⟩ := ordered
  have inv' := inv_step inv steps
  replace steps : threadStep s a = some t := (step_cases steps).resolve_left fun main => by simp [main.1] at thread
  refine ⟨inv',fun b out out' => ?_,?_⟩
  · rw [threadStep_place (by rcases thread with rfl | rfl <;> assumption) steps]
    exact others b out out'
  cases here : s.place a
  all_goals simp only [threadStep,here] at steps
  case kicking =>
    cases steps
    have first := (inv.soon a here).2
    simp only [State.runs,State.move,List.mem_cons] at first calls ⊢
    rcases calls with none | some | some | nobody <;> simp_all
  case leaving =>
    have found := inv.leaving a (.inl here)
    simp only [transport_unref_locked,found,if_pos thread,if_true,List.append_nil] at steps
    split_ifs at steps with last
    all_goals cases steps
    · -- the other thread is gone, so that nobody is about to kick
      have count := inv.count
      have nobody (b : Actor) : s.place b ≠ .kicking := by
        cases b <;> grind [held]
      have kicked := inv.kicked found
      have closed := inv.closed
      simp only [State.runs,State.move,held,List.mem_cons] at count kicked closed calls ⊢
      grind
    · exact calls
  all_goals
    try split_ifs at steps
    all_goals
      cases steps
      try exact calls

/-- When only its own threads kick the transport, in any interleaving, `kick`, `close` and `remove` are called in
    this order: it is not closed before it is kicked, and not kicked after it is closed. -/
theorem own_threads_in_order {order : List Actor} (own : ∀ a ∈ order, a = .input ∨ a = .output)
    (runs : run step registered order = some t) : t.calls ∈ [[],[Call.kick],[.kick,.close,.remove]] := by
  have start : Ordered registered := ⟨inv_registered,fun _ _ _ => rfl,by simp [registered]⟩
  exact (run_keeps ordered_step start (meets_of_all own) runs).calls

def alternating : List Actor := [.input,.output,.input,.output,.output,.input,.output,.input,.output]
theorem alternating_in_order : ∃ t, run step registered alternating = some t ∧ t.calls ∈ [[],[Call.kick],[.kick,.close,.remove]] := by
  obtain ⟨t,runs⟩ : ∃ t, run step registered alternating = some t := Option.isSome_iff_exists.mp rfl
  exact ⟨t,runs,own_threads_in_order (by decide) runs⟩

end Recovery.TransportExit
