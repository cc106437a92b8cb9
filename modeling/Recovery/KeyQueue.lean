import Mathlib.Data.List.Basic
import Recovery.Machines

/-!
The queue of keys between the input thread and the menus (ui.cpp). It is only touched under
`key_queue_mutex`, so that an interleaving of calls is a list of their locked sections.
-/
namespace Recovery.KeyQueue
open Machines List

/-- The length of `key_queue`. -/
def queueMax : Nat := 256

/-- The queue, with the keys that `WaitKey` has returned, and the accepted keys but for those that
    were flushed. -/
structure Keys where
  key_queue : Nat → Int
  key_queue_len : Int
  accepted : List Int
  returned : List Int

/-- The locked sections: of `EnqueueKey`, which drops the key when a dialog is shown; of
    `CancelWaitKey`; of `FlushKeys`; and the last one of `WaitKey`, which has found a key, timed out,
    or found the volumes changed. -/
inductive Call
  | enqueue (dialog : Bool) (key : Int)
  | cancel
  | flush
  | wait (changed : Bool)
  deriving DecidableEq, Repr

namespace Keys
variable (s : Keys)

/-- `key_queue[key_queue_len++] = key`; none for a write outside the array. -/
def put (key : Int) : Option Keys :=
  if 0 ≤ s.key_queue_len ∧ s.key_queue_len < queueMax then some { s with
    key_queue := Function.update s.key_queue s.key_queue_len.toNat key
    key_queue_len := s.key_queue_len + 1
    accepted := s.accepted ++ [key] }
  else none

/-- Takes the first key; `memcpy` moves the others up one by one. -/
def take : Keys where
  key_queue i := if i < s.key_queue_len.toNat - 1 then s.key_queue (i + 1) else s.key_queue i
  key_queue_len := s.key_queue_len - 1
  accepted := s.accepted
  returned := s.returned ++ [s.key_queue 0]

def step : Call → Option Keys
  | .enqueue dialog key => if dialog then some s else if s.key_queue_len < queueMax then s.put key else some s
  | .cancel => s.put (-2)
  | .flush => some { s with key_queue_len := 0, accepted := s.accepted.take s.returned.length }
  | .wait changed => if changed then some s else some (if 0 < s.key_queue_len then s.take else s)

/-- The keys in the queue. -/
def live : List Int := (List.range s.key_queue_len.toNat).map s.key_queue

end Keys

def start (key_queue : Nat → Int) : Keys := ⟨key_queue, 0, [], []⟩

/-- The length is in range, and the accepted keys are those that were returned and those that are queued. -/
structure Good (s : Keys) : Prop where
  low : 0 ≤ s.key_queue_len
  high : s.key_queue_len ≤ queueMax
  order : s.accepted = s.returned ++ s.live

/-- `CancelWaitKey` comes when there is room. -/
def Room (s : Keys) (call : Call) : Prop := call = .cancel → s.key_queue_len < queueMax

variable {s : Keys}

theorem put_spec (good : Good s) (room : s.key_queue_len < queueMax) (key : Int) : ∃ t, s.put key = some t ∧ Good t := by
  have low := good.low
  refine ⟨_,if_pos ⟨low,room⟩,Int.add_nonneg low (by decide),room,?_⟩
  simp only [Keys.live,Int.toNat_add low (show 0 ≤ 1 by decide),Int.reduceToNat,range_succ,map_append,map_singleton,
    Function.update_self,good.order,append_assoc]
  congr 2
  refine map_congr_left fun i member => ?_
  rw [Function.update_of_ne (Nat.ne_of_lt (mem_range.mp member))]

private theorem take_good (good : Good s) (positive : 0 < s.key_queue_len) : Good s.take := by
  have high := good.high
  obtain ⟨n,same⟩ : ∃ n : Nat, s.key_queue_len = n + 1 := ⟨s.key_queue_len.toNat - 1,by omega⟩
  refine ⟨?_,?_,?_⟩ <;> simp only [Keys.take]
  · omega
  · omega
  · rw [good.order,append_assoc]
    simp only [Keys.live,same,show ((n : Int) + 1).toNat = n + 1 by omega,show ((n : Int) + 1 - 1).toNat = n by omega,
      range_succ_eq_map,map_cons,map_map,singleton_append,Nat.add_sub_cancel]
    congr 2
    refine map_congr_left fun i member => ?_
    rw [if_pos (mem_range.mp member)]
    rfl

private theorem step_spec (good : Good s) (call : Call) :
    (Room s call ∧ ∃ t, s.step call = some t ∧ Good t) ∨ (¬ Room s call ∧ s.step call = none) := by
  cases call with
  | enqueue dialog key =>
    refine .inl ⟨nofun,?_⟩
    rw [Keys.step]
    split
    · exact ⟨s,rfl,good⟩
    split
    · exact put_spec good ‹_› key
    · exact ⟨s,rfl,good⟩
  | cancel =>
    by_cases room : s.key_queue_len < queueMax
    · exact .inl ⟨fun _ => room,put_spec good room (-2)⟩
    · exact .inr ⟨fun all => room (all rfl),if_neg fun both => room both.2⟩
  | flush =>
    refine .inl ⟨nofun,_,rfl,Int.le_refl 0,Int.natCast_nonneg _,?_⟩
    simp [Keys.live,good.order]
  | wait changed =>
    refine .inl ⟨nofun,?_⟩
    rw [Keys.step]
    split
    · exact ⟨s,rfl,good⟩
    · refine ⟨_,rfl,?_⟩
      split
      · exact take_good good ‹_›
      · exact good

/-- All writes of a run are inside the array, the length is in range, and the keys that were returned
    are the first of those that were accepted, in their order. -/
def Right (s : Keys) (calls : List Call) : Prop :=
  ∃ t, run Keys.step s calls = some t ∧ 0 ≤ t.key_queue_len ∧ t.key_queue_len ≤ queueMax ∧ t.returned <+: t.accepted

theorem right_iff {calls : List Call} (good : Good s) : Right s calls ↔ Meets Keys.step Room s calls := by
  induction calls generalizing s with
  | nil => exact iff_of_true ⟨s,rfl,good.low,good.high,s.live,good.order.symm⟩ trivial
  | cons call calls ih =>
    rcases step_spec good call with ⟨room,next,first,good'⟩ | ⟨full,stuck⟩
    · rw [Right,run,Meets,first]
      exact (ih good').trans ⟨fun meets => ⟨room,fun t same => Option.some.inj same ▸ meets⟩,fun meets => meets.2 next rfl⟩
    · refine iff_of_false ?_ fun meets => full meets.1
      rintro ⟨t,runs,_⟩
      rw [run,stuck] at runs
      cases runs

theorem key_queue_right_iff (key_queue : Nat → Int) (calls : List Call) :
    Right (start key_queue) calls ↔ Meets Keys.step Room (start key_queue) calls :=
  right_iff ⟨Int.le_refl 0, Int.natCast_nonneg _, rfl⟩

/-- The last of 257 calls of `CancelWaitKey` writes behind the array. -/
theorem cancelled_not_right : ¬ Right (start fun _ => 0) (List.replicate 257 .cancel) := by
  rintro ⟨t, runs, _⟩
  have stuck : (run Keys.step (start fun _ => 0) (List.replicate 257 .cancel)).isNone := by decide +kernel
  rw [runs] at stuck
  cases stuck

end Recovery.KeyQueue
