import Recovery.Fdevent
import Recovery.Memory

/-!
One local socket of `sockets.c` under the event loop: packets from the host are written to its
descriptor, at once or from a queue when the descriptor is writable again, and each is acknowledged.
-/
namespace Recovery.LocalSocket
open Memory Machines List
open Fdevent (Fde Events fdeRead fdeWrite has)

/-! ## Writes and reads -/

/-- What `adb_write` answers: it takes `n + 1` bytes, or all if there are fewer; `failed` is 0 or an
    error other than EAGAIN and EINTR. -/
inductive Wrote
  | accepts (n : Nat)
  | again
  | intr
  | failed
  deriving DecidableEq, Repr

inductive Fin
  | done
  | again
  | intr
  | failed
  deriving DecidableEq, Repr

/-- The written bytes, the rest, the end, and the answers that were not needed. -/
structure Push where
  out : Bytes
  rest : Bytes
  fin : Fin
  answers : List Wrote
  deriving DecidableEq, Repr

/-- The loop that writes one packet; behind the last answer the descriptor would block. -/
def push (retry : Bool) : List Wrote → Bytes → Push
  | answers, [] => ⟨[], [], .done, answers⟩
  | [], data => ⟨[], data, .again, []⟩
  | .accepts n :: answers, data =>
    let p := push retry answers (data.drop (n + 1))
    { p with out := data.take (n + 1) ++ p.out }
  | .again :: answers, data => ⟨[], data, .again, answers⟩
  | .intr :: answers, data => if retry then push retry answers data else ⟨[], data, .intr, answers⟩
  | .failed :: answers, data => ⟨[], data, .failed, answers⟩

structure Drain where
  out : Bytes
  queue : List Bytes
  fin : Fin
  deriving DecidableEq, Repr

def drain : List Bytes → List Wrote → Drain
  | [], _ => ⟨[], [], .done⟩
  | packet :: queue, answers =>
    let p := push true answers packet
    match p.fin with
    | .done =>
      let d := drain queue p.answers
      { d with out := p.out ++ d.out }
    | fin => ⟨p.out, p.rest :: queue, fin⟩

/-- What `adb_read` answers; `ended` is 0 or an error other than EAGAIN and EINTR. -/
inductive Reads
  | bytes (first : UInt8) (more : Bytes)
  | again
  | intr
  | ended
  deriving DecidableEq, Repr

def maxPayload : Nat := 4096

/-- The loop of reads into a packet: its data, and whether the end of file was seen. -/
def readLoop : List Reads → Bytes → Bytes × Bool
  | [], data => (data, false)
  | answer :: answers, data =>
    if data.length < maxPayload then
      match answer with
      | .bytes first more => readLoop answers (data ++ (first :: more).take (maxPayload - data.length))
      | .again => (data, false)
      | .intr => readLoop answers data
      | .ended => (data, true)
    else (data, false)

/-! ## The socket -/

/-- What happens at the socket, in order: packets from the host, writes to the descriptor and packets
    to the host. -/
inductive Event
  | received (data : Bytes)
  | wrote (data : Bytes)
  | okay (arg0 arg1 : Nat)
  | wrte (arg0 arg1 : Nat) (data : Bytes)
  | clse (arg0 arg1 : Nat)
  deriving DecidableEq, Repr

/-- `asocket`, with the id of its remote peer. `freed` after `local_socket_destroy`; `broken` when a
    write has failed; `trace` logs what happened. -/
structure Socket where
  id : Nat
  peer : Option Nat
  fde : Fde
  queue : List Bytes
  closing : Bool
  freed : Bool
  broken : Bool
  trace : List Event
  deriving DecidableEq, Repr

namespace Socket

def log (s : Socket) (events : List Event) : Socket := { s with trace := s.trace ++ events }

def destroy (s : Socket) : Socket := { s with fde := s.fde.removed, queue := [], freed := true }

/-- `remote_socket_close` for the peer, which has no peer any more and names its own id only. -/
def closePeer (s : Socket) : Socket :=
  match s.peer with
  | none => s
  | some remote => { s with peer := none }.log [.clse 0 remote]

/-- `local_socket_close_locked`. -/
def close (s : Socket) : Socket :=
  if s.closing ∨ s.queue = [] then s.closePeer.destroy
  else { s.closePeer with closing := true, fde := s.fde.del fdeRead }

/-- `local_socket_enqueue`, with its answer. -/
def enqueue (s : Socket) (data : Bytes) (answers : List Wrote) : Socket × Nat :=
  if s.queue ≠ [] then ({ s with queue := s.queue ++ [data], fde := s.fde.add fdeWrite }, 1)
  else
    let p := push false answers data
    let s := s.log [.wrote p.out]
    match p.fin with
    | .done => (s, 0)
    | .again => ({ s with queue := [p.rest], fde := s.fde.add fdeWrite }, 1)
    | .intr => (s.close, 1)
    | .failed => ({ s with broken := true }.close, 1)

def handleWrite (s : Socket) (rid : Nat) (data : Bytes) (answers : List Wrote) : Socket :=
  let (t, ret) := (s.log [.received data]).enqueue data answers
  if ret = 0 then t.log [.okay s.id rid] else t

/-- `handle_packet` for a packet A_OKAY, with `local_socket_ready`. -/
def handleOkay (s : Socket) (rid : Nat) : Socket :=
  { s with peer := s.peer.or (some rid), fde := s.fde.add fdeRead }

/-- The part of `local_socket_event_func` for FDE_READ. A read of 0 bytes is an end of file, so that
    `force_eof` adds nothing. -/
def readable (s : Socket) (reads : List Reads) : Socket :=
  let (data, ended) := readLoop reads []
  let t := match s.peer with
    | none => s
    | some remote =>
      if data = [] then s else { s with fde := s.fde.del fdeRead }.log [.wrte s.id remote data]
  if ended then t.close else t

/-- `local_socket_event_func`; none for a call through the null pointer of a missing peer. -/
def eventFunc (s : Socket) (ev : Events) (writes : List Wrote) (reads : List Reads) : Option Socket :=
  if has ev fdeWrite then
    let d := drain s.queue writes
    let s := { s with queue := d.queue }.log [.wrote d.out]
    match d.fin with
    | .done =>
      if s.closing then some s.close
      else
        match s.peer with
        | none => none
        | some remote =>
          let s := { s with fde := s.fde.del fdeWrite }.log [.okay s.id remote]
          some (if has ev fdeRead then s.readable reads else s)
    | .again => some s
    | _ => some { s with broken := true }.close
  else some (if has ev fdeRead then s.readable reads else s)

def Open (s : Socket) : Prop := s.closing = false ∧ s.freed = false

instance (s : Socket) : Decidable s.Open := inferInstanceAs (Decidable (_ ∧ _))

end Socket

/-- The socket that A_OPEN makes, with its answer. -/
def opened (id remote : Nat) (fd : Int) : Socket where
  id := id
  peer := some remote
  fde := (Fde.installed fd).add fdeRead
  queue := []
  closing := false
  freed := false
  broken := false
  trace := [.okay id remote]

/-- What can happen to the socket: packets of the host, its end or that of the transport, the end of
    the peer, a report of `select`, and a callback. -/
inductive Input
  | wrte (rid : Nat) (data : Bytes) (answers : List Wrote)
  | okay (rid : Nat)
  | clse
  | disconnect
  | select (ready : Events)
  | dispatch (writes : List Wrote) (reads : List Reads)
  deriving DecidableEq, Repr

/-- One step. Packets find only a socket that is in the list; `select` reports only what is wanted. -/
def step (s : Socket) : Input → Option Socket
  | .wrte rid data answers => some (if s.Open then s.handleWrite rid data answers else s)
  | .okay rid => some (if s.Open then s.handleOkay rid else s)
  | .clse => some (if s.Open then s.close else s)
  | .disconnect => some (if s.Open then { s with peer := none }.close else s)
  | .select ready =>
    let ev := ready &&& s.fde.wanted &&& (fdeRead ||| fdeWrite ||| Fdevent.fdeError)
    some (if s.freed = false ∧ ev ≠ 0 then { s with fde := s.fde.signal ev false } else s)
  | .dispatch writes reads =>
    if s.freed = false ∧ s.fde.pending then { s with fde := s.fde.taken }.eventFunc s.fde.events writes reads
    else some s

/-! ## What the loops do -/

/-- An answer that takes bytes or would block. -/
def Wrote.Plain : Wrote → Prop
  | .accepts _ => True
  | .again => True
  | _ => False

theorem push_split (retry : Bool) (answers : List Wrote) (data : Bytes) :
    (push retry answers data).out ++ (push retry answers data).rest = data := by
  fun_induction push retry answers data with
  | case3 answers n data _ p ih => simp_all [p]
  | _ => simp_all

theorem push_rest (retry : Bool) (answers : List Wrote) (data : Bytes) :
    (push retry answers data).rest = [] ↔ (push retry answers data).fin = .done := by
  fun_induction push retry answers data with
  | case3 answers n data _ p ih => exact ih
  | _ => simp_all

theorem push_plain {retry : Bool} {answers : List Wrote} (data : Bytes) (plain : ∀ a ∈ answers, a.Plain) :
    ((push retry answers data).fin = .done ∨ (push retry answers data).fin = .again) ∧
      ∀ a ∈ (push retry answers data).answers, a.Plain := by
  fun_induction push retry answers data with
  | case1 answers => exact ⟨.inl rfl,plain⟩
  | case2 data _ => exact ⟨.inr rfl,plain⟩
  | case3 answers n data _ p ih => exact ih fun a member => plain a (mem_cons_of_mem _ member)
  | case4 answers data _ => exact ⟨.inr rfl,fun a member => plain a (mem_cons_of_mem _ member)⟩
  | case5 answers data _ _ => exact (plain _ mem_cons_self).elim
  | case6 answers data _ _ => exact (plain _ mem_cons_self).elim
  | case7 answers data _ => exact (plain _ mem_cons_self).elim

theorem drain_split (queue : List Bytes) (answers : List Wrote) :
    (drain queue answers).out ++ (drain queue answers).queue.flatten = queue.flatten := by
  fun_induction drain queue answers with
  | case1 => rfl
  | case2 packet queue answers p done d ih =>
    have whole := push_split true answers packet
    rw [(push_rest true answers packet).mpr done,append_nil] at whole
    simp only [flatten_cons,append_assoc]
    rw [ih,whole]
  | case3 packet queue answers p fin =>
    simp only [flatten_cons,← append_assoc]
    rw [push_split]

variable {queue : List Bytes}

theorem drain_done {answers : List Wrote} (done : (drain queue answers).fin = .done) :
    (drain queue answers).queue = [] := by
  fun_induction drain queue answers with
  | case1 => rfl
  | case2 packet queue answers p _ d ih => exact ih done
  | case3 packet queue answers p fin => exact (fin done).elim

theorem drain_rest {answers : List Wrote} (more : (drain queue answers).fin ≠ .done) :
    ∃ first rest, (drain queue answers).queue = first :: rest ∧ first ≠ [] := by
  fun_induction drain queue answers with
  | case1 => exact (more rfl).elim
  | case2 packet queue answers p _ d ih => exact ih more
  | case3 packet queue answers p fin => exact ⟨_,_,rfl,mt (push_rest true answers packet).mp fin⟩

theorem drain_plain (queue : List Bytes) {answers : List Wrote} (plain : ∀ a ∈ answers, a.Plain) :
    (drain queue answers).fin = .done ∨ (drain queue answers).fin = .again := by
  fun_induction drain queue answers with
  | case1 => exact .inl rfl
  | case2 packet queue answers p _ d ih => exact ih (push_plain packet plain).2
  | case3 packet queue answers p fin => exact (push_plain packet plain).1

theorem drain_all {m n : Nat} (enough : queue.length ≤ m) (short : ∀ p ∈ queue, p.length ≤ n + 1) :
    (drain queue (List.replicate m (.accepts n))).fin = .done := by
  induction queue generalizing m with
  | nil => rfl
  | cons packet queue ih =>
    obtain ⟨m,rfl⟩ : ∃ k, m = k + 1 := Nat.exists_eq_add_one.mpr (by simp at enough; omega)
    have fewer : queue.length ≤ m := by simpa using enough
    have later : ∀ p ∈ queue, p.length ≤ n + 1 := fun p member => short p (mem_cons_of_mem _ member)
    -- an empty packet needs no write
    cases packet with
    | nil =>
      exact ih (m := m + 1) (by omega) later
    | cons b packet =>
      have whole : (b :: packet).drop (n + 1) = [] := drop_eq_nil_of_le (short _ mem_cons_self)
      have pushed : push true (replicate (m + 1) (.accepts n)) (b :: packet) =
          ⟨(b :: packet).take (n + 1) ++ [],[],.done,replicate m (.accepts n)⟩ := by
        rw [replicate_succ,push,whole]
        · cases m <;> rfl
        · simp
      rw [drain,pushed]
      exact ih fewer later

/-! ## The log -/

/-- The packets that the host sent, the bytes that were written, and the number of packets A_OKAY. -/
def received (trace : List Event) : List Bytes :=
  trace.filterMap fun
    | .received data => some data
    | _ => none
def written (trace : List Event) : Bytes :=
  trace.flatMap fun
    | .wrote data => data
    | _ => []
def okays (trace : List Event) : Nat :=
  trace.countP fun
    | .okay _ _ => true
    | _ => false

@[simp] theorem received_append (a b : List Event) : received (a ++ b) = received a ++ received b :=
  filterMap_append
@[simp] theorem written_append (a b : List Event) : written (a ++ b) = written a ++ written b := flatMap_append
@[simp] theorem okays_append (a b : List Event) : okays (a ++ b) = okays a + okays b := countP_append

namespace Socket

/-! ## The parts of a step -/

@[simp] theorem log_peer (s : Socket) (events : List Event) : (s.log events).peer = s.peer := rfl
@[simp] theorem log_fde (s : Socket) (events : List Event) : (s.log events).fde = s.fde := rfl
@[simp] theorem log_queue (s : Socket) (events : List Event) : (s.log events).queue = s.queue := rfl
@[simp] theorem log_closing (s : Socket) (events : List Event) : (s.log events).closing = s.closing := rfl
@[simp] theorem log_trace (s : Socket) (events : List Event) : (s.log events).trace = s.trace ++ events := rfl

theorem close_not_open (s : Socket) : ¬ s.close.Open := by
  unfold close
  split
  · rintro ⟨_,kept⟩
    cases kept
  · rintro ⟨closing,_⟩
    cases closing

end Socket

end Recovery.LocalSocket
