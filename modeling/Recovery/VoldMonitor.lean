import Recovery.BootMessage
import Recovery.Framing

/-!
The loop `monitor` of `event_loop.cpp`, which reads the responses of vold from a stream socket. What a
read leaves unfinished is cleared before the next read.
-/
namespace Recovery.VoldMonitor
open Memory Framing List
open BootMessage (cstring)

/-- What a round of the loop sees: nothing for ten seconds, some bytes, the end of the connection, or
    an error of `select` or `read`. -/
inductive Poll
  | timeout
  | data (bytes : Bytes)
  | lost
  | failed
  deriving DecidableEq, Repr

/-- The loop over the bytes of a read, from `i` on: the strings that go to `handle_response`. -/
def scan (buffer : Bytes) : Nat → Nat → Nat → List Bytes
  | 0, _, _ => []
  | left + 1, i, offset =>
    if buffer.getD i 0 = 0 then cstring (buffer.drop offset) :: scan buffer left (i + 1) (i + 1)
    else scan buffer left (i + 1) offset

def responses (data : Bytes) : List Bytes := scan (data ++ List.replicate (4096 - data.length) 0) data.length 0 0

def received : List Poll → List Bytes
  | [] => []
  | .timeout :: polls => received polls
  | .data bytes :: polls => responses bytes ++ received polls
  | .lost :: _ => []
  | .failed :: _ => []

/-- The words that `split` finds. -/
def words (response : Bytes) : List Bytes := (response.splitOn 32).filter (· ≠ [])
def reads (polls : List Poll) : List Bytes :=
  polls.filterMap fun
    | .data bytes => some bytes
    | _ => none

def Reads : Poll → Prop
  | .timeout => True
  | .data bytes => 1 ≤ bytes.length ∧ bytes.length ≤ 4096
  | _ => False

instance : ∀ poll, Decidable (Reads poll)
  | .timeout => .isTrue trivial
  | .data _ => inferInstanceAs (Decidable (_ ∧ _))
  | .lost => .isFalse id
  | .failed => .isFalse id

end Recovery.VoldMonitor
