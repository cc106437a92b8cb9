import Mathlib.Data.List.Nodup
import Recovery.Memory

/-!
The ids of local sockets (minadbd/sockets.c), which come from a counter of 32 bits.
-/
namespace Recovery.SocketIds
open Memory List

/-- A local socket: which one it is in the order of `install_local_socket`, and its id. -/
structure Socket where
  number : Nat
  id : Nat
  deriving DecidableEq, Repr

/-- `local_socket_list` and `local_socket_next_id`, and the number of the next socket. -/
structure Sockets where
  local_socket_list : List Socket
  local_socket_next_id : Nat
  number : Nat
  deriving DecidableEq, Repr

/-- A socket is installed, or the one with a number leaves the list, destroyed or to be closed. -/
inductive Event
  | opens
  | closes (number : Nat)
  deriving DecidableEq, Repr

def find_local_socket (s : Sockets) (id : Nat) : Option Socket := s.local_socket_list.find? (·.id = id)
def install_local_socket (s : Sockets) : Sockets where
  local_socket_list := s.local_socket_list ++ [⟨s.number, s.local_socket_next_id⟩]
  local_socket_next_id := unsigned 32 (s.local_socket_next_id + 1 : Nat)
  number := s.number + 1
def remove_socket (s : Sockets) (number : Nat) : Sockets :=
  { s with local_socket_list := s.local_socket_list.filter (·.number ≠ number) }

def step (s : Sockets) : Event → Sockets
  | .opens => install_local_socket s
  | .closes number => remove_socket s number
def after (events : List Event) : Sockets := events.foldl step ⟨[], 1, 0⟩

/-- The ids are distinct and none is zero, so that each socket is found by its id. -/
structure Right (s : Sockets) : Prop where
  distinct : (s.local_socket_list.map Socket.id).Nodup
  nonzero : ∀ x ∈ s.local_socket_list, x.id ≠ 0
  found : ∀ x ∈ s.local_socket_list, find_local_socket s x.id = some x

/-- None of the sockets was the last of a multiple of `2 ^ 32` to be opened, and no two of them were
    opened a multiple of `2 ^ 32` apart. -/
structure Spaced (numbers : List Nat) : Prop where
  nonzero : ∀ n ∈ numbers, (n + 1) % 2 ^ 32 ≠ 0
  apart : ∀ n ∈ numbers, ∀ m ∈ numbers, n % 2 ^ 32 = m % 2 ^ 32 → n = m

/-- What the counter makes of the numbers. -/
structure Counted (s : Sockets) : Prop where
  next : s.local_socket_next_id = (s.number + 1) % 2 ^ 32
  ids : ∀ x ∈ s.local_socket_list, x.id = (x.number + 1) % 2 ^ 32
  below : ∀ x ∈ s.local_socket_list, x.number < s.number
  distinct : (s.local_socket_list.map Socket.number).Nodup

variable {s : Sockets}

theorem counted_opens (counted : Counted s) : Counted (install_local_socket s) where
  next := by
    have sum : ((s.number + 1) % 2 ^ 32 + 1) % 2 ^ 32 = (s.number + 1 + 1) % 2 ^ 32 := by omega
    have cast (n : Nat) : ((n : Int) % 2 ^ 32) = (n % 2 ^ 32 : Nat) := by push_cast; rfl
    simp only [install_local_socket,unsigned,cast,Int.toNat_natCast,counted.next,sum]
  ids x member := by
    rcases mem_append.mp member with old | new
    · exact counted.ids x old
    · rw [mem_singleton.mp new]
      exact counted.next
  below x member := by
    rcases mem_append.mp member with old | new
    · exact Nat.lt_succ_of_lt (counted.below x old)
    · rw [mem_singleton.mp new]
      exact Nat.lt_succ_self _
  distinct := by
    rw [install_local_socket,map_append,map_singleton,nodup_append]
    refine ⟨counted.distinct,by simp,fun n old m new => ?_⟩
    obtain ⟨x,member,rfl⟩ := mem_map.mp old
    rw [mem_singleton.mp new]
    exact Nat.ne_of_lt (counted.below x member)
private theorem counted_closes (counted : Counted s) (number : Nat) : Counted (remove_socket s number) where
  next := counted.next
  ids x member := counted.ids x (mem_of_mem_filter member)
  below x member := counted.below x (mem_of_mem_filter member)
  distinct := counted.distinct.sublist (filter_sublist.map _)

theorem counted_after (events : List Event) : Counted (after events) := by
  have all : ∀ {s : Sockets}, Counted s → Counted (events.foldl step s) := by
    induction events with
    | nil => exact id
    | cons event events ih =>
      intro s counted
      cases event with
      | opens => exact ih (counted_opens counted)
      | closes number => exact ih (counted_closes counted number)
  exact all ⟨rfl,by simp,by simp,nodup_nil⟩

theorem id_eq_iff (n m : Nat) : (n + 1) % 2 ^ 32 = (m + 1) % 2 ^ 32 ↔ n % 2 ^ 32 = m % 2 ^ 32 := by omega

theorem right_iff (counted : Counted s) : Right s ↔ Spaced (s.local_socket_list.map Socket.number) := by
  constructor
  · intro right
    refine ⟨forall_mem_map.mpr fun x member => counted.ids x member ▸ right.nonzero x member,forall_mem_map.mpr fun x first =>
      forall_mem_map.mpr fun y second same => ?_⟩
    rw [← id_eq_iff,← counted.ids x first,← counted.ids y second] at same
    rw [inj_on_of_nodup_map right.distinct first second same]
  · intro spaced
    have same x (first : x ∈ s.local_socket_list) y (second : y ∈ s.local_socket_list) (equal : x.id = y.id) : x = y := by
      rw [counted.ids x first,counted.ids y second,id_eq_iff] at equal
      exact inj_on_of_nodup_map counted.distinct first second
        (spaced.apart _ (mem_map_of_mem first) _ (mem_map_of_mem second) equal)
    refine ⟨(Nodup.of_map _ counted.distinct).map_on same,fun x member => ?_,fun x member => ?_⟩
    · rw [counted.ids x member]
      exact spaced.nonzero _ (mem_map_of_mem member)
    · obtain ⟨y,found⟩ := Option.isSome_iff_exists.mp (find?_isSome.mpr ⟨x,member,by simp⟩ :
        (find_local_socket s x.id).isSome)
      rw [find_local_socket,found,same y (mem_of_find?_eq_some found) x member (by simpa using find?_some found)]

/-- After every run of opens and closes the ids are as they should be exactly if the sockets that are
    still open are spaced. -/
theorem socket_ids_right_iff (events : List Event) :
    Right (after events) ↔ Spaced ((after events).local_socket_list.map Socket.number) :=
  right_iff (counted_after events)

/-- Sockets that are opened and closed, one after the other. -/
def oneAtATime (n : Nat) : List Event := (List.range n).flatMap fun k => [.opens, .closes k]

private theorem after_oneAtATime (n : Nat) : after (oneAtATime n) = ⟨[],(n + 1) % 2 ^ 32,n⟩ := by
  induction n with
  | zero => rfl
  | succ n ih =>
    have before : after (oneAtATime (n + 1)) = [Event.opens,.closes n].foldl step (after (oneAtATime n)) := by
      simp [after,oneAtATime,range_succ,flatMap_append]
    have opened := (counted_opens (counted_after (oneAtATime n))).next
    rw [ih] at opened
    rw [before,ih]
    simp only [foldl_cons,foldl_nil,step,remove_socket,opened]
    simp [install_local_socket]
private theorem zero_id_not_right {n : Nat} (zero : (n + 1) % 2 ^ 32 = 0) :
    (after (oneAtATime n ++ [.opens])).local_socket_list = [⟨n,0⟩] ∧ ¬ Right (after (oneAtATime n ++ [.opens])) := by
  have only : (after (oneAtATime n ++ [.opens])).local_socket_list = [⟨n,0⟩] := by
    rw [after,foldl_append,← after,after_oneAtATime,zero]
    rfl
  exact ⟨only,fun right => right.nonzero ⟨n,0⟩ (by simp [only]) rfl⟩

/-- When `2 ^ 32 - 1` sockets were opened and closed, the next one gets the id zero. -/
theorem last_id_not_right :
    (after (oneAtATime 4294967295 ++ [.opens])).local_socket_list = [⟨4294967295, 0⟩] ∧
      ¬ Right (after (oneAtATime 4294967295 ++ [.opens])) := zero_id_not_right (by decide)

end Recovery.SocketIds
