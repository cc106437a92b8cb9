import Recovery.LocalSocket

/-!
What an open local socket does with the packets of the host: their bytes are written in order or still
queued, and if the host waits for an acknowledgement before it sends more, each packet gets one, after
its last byte is written.
-/
namespace Recovery.SocketFlow
open Memory Machines LocalSocket List Option
open Fdevent (Fde Events fdeRead fdeWrite has)

/-- Nobody closes the socket, and every write takes bytes or would block. -/
def Plain : Input → Prop
  | .wrte _ _ answers => ∀ a ∈ answers, a.Plain
  | .dispatch writes reads => (∀ a ∈ writes, a.Plain) ∧ .ended ∉ reads
  | .clse => False
  | .disconnect => False
  | _ => True

/-- The host sends a packet only when all it sent before are acknowledged. -/
def Waits (s : Socket) : Input → Prop
  | .wrte _ _ _ => okays s.trace = 1 + (received s.trace).length
  | _ => True

instance (s : Socket) : ∀ i, Decidable (Waits s i)
  | .wrte _ _ _ => inferInstanceAs (Decidable (_ = _))
  | .okay _ => .isTrue trivial
  | .clse => .isTrue trivial
  | .disconnect => .isTrue trivial
  | .select _ => .isTrue trivial
  | .dispatch _ _ => .isTrue trivial

def payload : Input → List Bytes
  | .wrte _ data _ => [data]
  | _ => []

/-- Every acknowledgement comes when the bytes of all packets are written, and there were as many
    packets as acknowledgements before it, with that of the open. -/
def Answered (trace : List Event) : Prop :=
  ∀ front arg0 arg1 back, trace = front ++ .okay arg0 arg1 :: back →
    written front = (received front).flatten ∧ okays front = (received front).length

theorem answered_snoc {trace : List Event} {e : Event} (answered : Answered trace)
    (last : ∀ arg0 arg1, e = .okay arg0 arg1 → written trace = (received trace).flatten ∧ okays trace = (received trace).length) :
    Answered (trace ++ [e]) := by
  intro front arg0 arg1 back split
  rcases eq_nil_or_concat back with rfl | ⟨back,e',rfl⟩
  · obtain ⟨rfl,same⟩ := append_inj' split rfl
    exact last arg0 arg1 (cons.inj same).1
  · rw [concat_eq_append,← cons_append,← append_assoc] at split
    exact answered front arg0 arg1 back (append_inj' split rfl).1

/-! ## The invariant -/

/-- The bytes of the packets are written or queued, and the descriptor is watched for writing while
    something is queued. -/
structure Flow (s : Socket) : Prop where
  bytes : written s.trace ++ s.queue.flatten = (received s.trace).flatten
  peer : s.peer.isSome
  watched : s.queue ≠ [] ↔ s.fde.wanted.getLsbD 1
  due : s.fde.events.getLsbD 1 → s.queue ≠ []

/-- All packets are acknowledged but for the one that is queued. -/
structure Paced (s : Socket) : Prop where
  count : okays s.trace + (if s.queue = [] then 0 else 1) = 1 + (received s.trace).length
  answered : Answered s.trace

structure Same (s t : Socket) : Prop where
  queue : t.queue = s.queue
  peer : s.peer.isSome → t.peer.isSome
  wanted : t.fde.wanted.getLsbD 1 = s.fde.wanted.getLsbD 1
  due : t.fde.events.getLsbD 1 → s.fde.events.getLsbD 1
  idle : s.fde.pending = false → t.fde.pending = false ∧ t.fde.events = s.fde.events
  broken : t.broken = s.broken
  trace : t.trace = s.trace ∨ ∃ arg0 arg1 data, t.trace = s.trace ++ [.wrte arg0 arg1 data]

variable {t : Socket} {ev : Events} {rid : Nat} {queue : List Bytes} {data : Bytes} {answers writes : List Wrote}
  {i : Input} {inputs : List Input}

theorem Same.received {s : Socket} (same : Same s t) : received t.trace = received s.trace := by
  rcases same.trace with equal | ⟨_,_,_,more⟩
  · rw [equal]
  · rw [more,received_append]
    exact append_nil _
theorem Same.written {s : Socket} (same : Same s t) : written t.trace = written s.trace := by
  rcases same.trace with equal | ⟨_,_,_,more⟩
  · rw [equal]
  · rw [more,written_append]
    exact append_nil _
theorem Same.okays {s : Socket} (same : Same s t) : okays t.trace = okays s.trace := by
  rcases same.trace with equal | ⟨_,_,_,more⟩
  · rw [equal]
  · rw [more,okays_append]
    rfl

theorem Same.flow {s : Socket} (same : Same s t) (flow : Flow s) : Flow t where
  bytes := by
    rw [same.written,same.received,same.queue]
    exact flow.bytes
  peer := same.peer flow.peer
  watched := by
    rw [same.wanted,same.queue]
    exact flow.watched
  due bit := by
    rw [same.queue]
    exact flow.due (same.due bit)
theorem Same.paced {s : Socket} (same : Same s t) (paced : Paced s) : Paced t where
  count := by
    rw [same.okays,same.received,same.queue]
    exact paced.count
  answered := by
    rcases same.trace with equal | ⟨_,_,_,more⟩
    · rw [equal]
      exact paced.answered
    · rw [more]
      exact answered_snoc paced.answered fun _ _ other => by cases other

/-! ## One step -/

theorem bit_add_write : ∀ w : Events, (w ||| fdeWrite).getLsbD 1 = true := by decide
private theorem bit_add_read : ∀ w : Events, (w ||| fdeRead).getLsbD 1 = w.getLsbD 1 := by decide
private theorem bit_del_write : ∀ w : Events, (w &&& ~~~ fdeWrite).getLsbD 1 = false := by decide
theorem bit_del_read : ∀ w : Events, (w &&& ~~~ fdeRead).getLsbD 1 = w.getLsbD 1 := by decide

theorem readable_cases (s : Socket) (reads : List Reads) : ∃ t, Same s t ∧ (t.Open ↔ s.Open) ∧
    s.readable reads = if (readLoop reads []).2 then t.close else t := by
  have stays : Same s s := ⟨rfl,id,rfl,id,fun idle => ⟨idle,rfl⟩,rfl,.inl rfl⟩
  refine ⟨_,?_,?_,rfl⟩
  · split
    · exact stays
    · split
      · exact stays
      · refine ⟨rfl,id,?_,Fdevent.set_events,Fdevent.set_idle _,rfl,.inr ⟨_,_,_,rfl⟩⟩
        simp only [Socket.log_fde,Fdevent.del_wanted,bit_del_read]
  · split
    · rfl
    · split <;> rfl

private theorem readable_same {s : Socket} {reads : List Reads} (still : (s.readable reads).Open) :
    s.Open ∧ Same s (s.readable reads) := by
  obtain ⟨t,same,isOpen,equal⟩ := readable_cases s reads
  rw [equal] at still ⊢
  split at still
  · exact (Socket.close_not_open _ still).elim
  · rename_i more
    rw [if_neg more]
    exact ⟨isOpen.mp still,same⟩

theorem readPart_same {s : Socket} {reads : List Reads}
    (still : (if has ev fdeRead then s.readable reads else s).Open) :
    s.Open ∧ Same s (if has ev fdeRead then s.readable reads else s) := by
  split
  · rename_i read
    rw [if_pos read] at still
    exact readable_same still
  · rename_i other
    rw [if_neg other] at still
    exact ⟨still,rfl,id,rfl,id,fun idle => ⟨idle,rfl⟩,rfl,.inl rfl⟩

theorem handleOkay_same {s : Socket} : Same s (s.handleOkay rid) := by
  refine ⟨rfl,?_,?_,Fdevent.set_events,Fdevent.set_idle _,rfl,.inl rfl⟩
  · intro peer
    simp [Socket.handleOkay]
  · simp only [Socket.handleOkay,Fdevent.add_wanted,bit_add_read]

def Begins (queue : List Bytes) : Prop := ∃ first rest, queue = first :: rest ∧ first ≠ []

theorem Begins.ne_nil (begins : Begins queue) : queue ≠ [] := by
  obtain ⟨first,rest,rfl,_⟩ := begins
  exact cons_ne_nil first rest

theorem handleWrite_cases {s : Socket}
    (still : (s.handleWrite rid data answers).Open) :
    (s.queue ≠ [] ∧ s.handleWrite rid data answers =
      { s with queue := s.queue ++ [data], fde := s.fde.add fdeWrite, trace := s.trace ++ [.received data] }) ∨
    (s.queue = [] ∧ s.handleWrite rid data answers =
      { s with trace := s.trace ++ [.received data] ++ [.wrote data] ++ [.okay s.id rid] }) ∨
    (s.queue = [] ∧ ∃ out rest, out ++ rest = data ∧ rest ≠ [] ∧ s.handleWrite rid data answers =
      { s with queue := [rest], fde := s.fde.add fdeWrite, trace := s.trace ++ [.received data] ++ [.wrote out] }) := by
  have whole := push_split false answers data
  have finished := push_rest false answers data
  unfold Socket.handleWrite Socket.enqueue at still ⊢
  simp only [Socket.log_queue] at still ⊢
  by_cases empty : s.queue = []
  · simp only [empty,ne_eq,not_true_eq_false,if_false,false_and,false_or,true_and] at still ⊢
    cases fin : (push false answers data).fin with
    | done =>
      rw [finished.mpr fin,append_nil] at whole
      left
      simp [Socket.log,whole,empty]
    | again =>
      right
      exact ⟨_,_,whole,fun none => by simp [fin] at finished; exact finished none,rfl⟩
    | intr =>
      rw [fin] at still
      exact (Socket.close_not_open _ still).elim
    | failed =>
      rw [fin] at still
      exact (Socket.close_not_open _ still).elim
  · left
    simp [empty,Socket.log]

private theorem handleWrite_flow {s : Socket} (flow : Flow s)
    (still : (s.handleWrite rid data answers).Open) : Flow (s.handleWrite rid data answers) := by
  have bytes := flow.bytes
  rcases handleWrite_cases still with ⟨queued,equal⟩ | ⟨empty,equal⟩ | ⟨empty,out,rest,whole,_,equal⟩
  · rw [equal]
    constructor
    · simp [received,written] at bytes ⊢
      rw [← append_assoc,bytes]
    · exact flow.peer
    · simp only [Fdevent.add_wanted,bit_add_write]
      simp
    · simp
  · rw [equal]
    constructor
    · simp [received,written,empty] at bytes ⊢
      rw [bytes]
    · exact flow.peer
    · exact flow.watched
    · exact flow.due
  · rw [equal]
    constructor
    · simp [received,written,empty] at bytes ⊢
      rw [bytes,whole]
    · exact flow.peer
    · simp only [Fdevent.add_wanted,bit_add_write]
      simp
    · simp

private theorem handleWrite_paced {s : Socket} (flow : Flow s) (paced : Paced s)
    (waits : okays s.trace = 1 + (received s.trace).length) (still : (s.handleWrite rid data answers).Open) :
    Paced (s.handleWrite rid data answers) := by
  have count := paced.count
  have empty : s.queue = [] := by
    by_contra queued
    rw [if_neg queued] at count
    omega
  have bytes := flow.bytes
  rw [empty,flatten_nil,append_nil] at bytes
  have got : Answered (s.trace ++ [.received data]) := answered_snoc paced.answered fun _ _ other => by cases other
  rcases handleWrite_cases still with ⟨queued,_⟩ | ⟨_,equal⟩ | ⟨_,out,rest,_,_,equal⟩
  · exact (queued empty).elim
  · rw [equal]
    constructor
    · simp [received,okays,empty] at waits ⊢
      omega
    apply answered_snoc (answered_snoc got fun _ _ other => by cases other)
    intro _ _ _
    refine ⟨?_,?_⟩
    · simp [received,written] at bytes ⊢
      rw [bytes]
    · simp [received,okays] at waits ⊢
      omega
  · rw [equal]
    constructor
    · simp [received,okays] at waits ⊢
      omega
    · exact answered_snoc got fun _ _ other => by cases other

private theorem select_flow {s : Socket} (flow : Flow s) (wanted : ∀ k, ev.getLsbD k → s.fde.wanted.getLsbD k) :
    Flow { s with fde := s.fde.signal ev false } where
  bytes := flow.bytes
  peer := flow.peer
  watched := flow.watched
  due bit := by
    simp only [Fde.signal,BitVec.getLsbD_or,Bool.or_eq_true] at bit
    rcases bit with old | new
    · exact flow.due old
    · exact flow.watched.mpr (wanted 1 new)

def drained (s : Socket) (remote : Nat) : Socket where
  __ := s
  queue := []
  fde := s.fde.del fdeWrite
  trace := s.trace ++ [.wrote s.queue.flatten] ++ [.okay s.id remote]

theorem eventFunc_cases {s : Socket} {reads : List Reads} (isOpen : s.Open)
    (done : s.eventFunc ev writes reads = some t) (still : t.Open) :
    (¬ ev.getLsbD 1 ∧ Same s t) ∨
    (ev.getLsbD 1 ∧ (drain s.queue writes).fin ≠ .done ∧ ∃ out queue, out ++ queue.flatten = s.queue.flatten ∧ Begins queue ∧
      t = { s with queue := queue, trace := s.trace ++ [.wrote out] }) ∨
    (ev.getLsbD 1 ∧ ∃ remote, Same (drained s remote) t) := by
  have whole := drain_split s.queue writes
  unfold Socket.eventFunc at done
  rw [Fdevent.has_write] at done
  split at done
  · rename_i write
    right
    simp only at done
    cases fin : (drain s.queue writes).fin with
    | done =>
      rw [fin] at done
      simp only [Socket.log_closing,isOpen.1,Bool.false_eq_true,if_false,Socket.log_peer] at done
      split at done
      · cases done
      rename_i remote peer
      obtain rfl := some.inj done
      right
      refine ⟨write,remote,?_⟩
      rw [drain_done fin,flatten_nil,append_nil] at whole
      have same := (readPart_same still).2
      simpa only [Socket.log,drained,whole,drain_done fin,isOpen.1] using same
    | again =>
      rw [fin] at done
      obtain rfl := some.inj done
      left
      have blocked : (drain s.queue writes).fin ≠ .done := by
        rw [fin]
        simp
      exact ⟨write,by simp,_,_,whole,drain_rest blocked,rfl⟩
    | intr =>
      rw [fin] at done
      obtain rfl := some.inj done
      exact (Socket.close_not_open _ still).elim
    | failed =>
      rw [fin] at done
      obtain rfl := some.inj done
      exact (Socket.close_not_open _ still).elim
  · rename_i quiet
    obtain rfl := some.inj done
    exact .inl ⟨quiet,(readPart_same still).2⟩

theorem taken_flow {s : Socket} (flow : Flow s) : Flow { s with fde := s.fde.taken } where
  bytes := flow.bytes
  peer := flow.peer
  watched := flow.watched
  due bit := by simp [Fde.taken] at bit

private theorem blocked_flow {s : Socket} {out : Bytes} (flow : Flow s) (before : s.queue ≠ [])
    (whole : out ++ queue.flatten = s.queue.flatten) (more : queue ≠ []) :
    Flow { s with queue := queue, trace := s.trace ++ [.wrote out] } where
  bytes := by
    have bytes := flow.bytes
    rw [← whole] at bytes
    simp [received,written] at bytes ⊢
    exact bytes
  peer := flow.peer
  watched := iff_of_true more (flow.watched.mp before)
  due _ := more

private theorem drained_flow {s : Socket} {remote : Nat} (flow : Flow s) (idle : s.fde.events = 0) : Flow (drained s remote) where
  bytes := by
    have bytes := flow.bytes
    simp [drained,received,written] at bytes ⊢
    exact bytes
  peer := flow.peer
  watched := by
    simp only [drained,Fdevent.del_wanted,bit_del_write]
    simp
  due bit := by
    have old := Fdevent.set_events (show ((s.fde.del fdeWrite).events.getLsbD 1) from bit)
    simp [idle] at old

theorem blocked_paced {s : Socket} {out : Bytes} (paced : Paced s) (before : s.queue ≠ [])
    (more : queue ≠ []) : Paced { s with queue := queue, trace := s.trace ++ [.wrote out] } where
  count := by
    have count := paced.count
    rw [if_neg before] at count
    simp [received,okays,more] at count ⊢
    exact count
  answered := answered_snoc paced.answered fun _ _ other => by cases other

theorem drained_paced {s : Socket} {remote : Nat} (flow : Flow s) (paced : Paced s) (before : s.queue ≠ []) :
    Paced (drained s remote) := by
  have count := paced.count
  rw [if_neg before] at count
  constructor
  · simp [drained,received,okays] at count ⊢
    exact count
  apply answered_snoc (answered_snoc paced.answered fun _ _ other => by cases other)
  intro _ _ _
  have bytes := flow.bytes
  constructor
  · simp [received,written] at bytes ⊢
    exact bytes
  · simp [received,okays] at count ⊢
    omega

theorem eventFunc_open {s : Socket} {reads : List Reads}
    (done : s.eventFunc ev writes reads = some t) (still : t.Open) : s.Open := by
  unfold Socket.eventFunc at done
  split at done
  · simp only at done
    split at done
    · split at done
      · obtain rfl := some.inj done
        exact (Socket.close_not_open _ still).elim
      split at done
      · cases done
      · obtain rfl := some.inj done
        have inner := (readPart_same still).1
        exact inner
    · obtain rfl := some.inj done
      exact still
    · obtain rfl := some.inj done
      exact (Socket.close_not_open _ still).elim
  · obtain rfl := some.inj done
    exact (readPart_same still).1

theorem open_of_step {s : Socket} (done : step s i = some t) (still : t.Open) : s.Open := by
  by_contra shut
  cases i with
  | wrte | okay | clse | disconnect =>
    simp only [step,if_neg shut] at done
    exact shut (some.inj done ▸ still)
  | select ready =>
    obtain rfl := some.inj done
    split at still
    · exact shut still
    · exact shut still
  | dispatch writes reads =>
    simp only [step] at done
    split at done
    · have before := eventFunc_open done still
      exact shut before
    · exact shut (some.inj done ▸ still)

/-- What a step comes to for a socket that stays open. -/
inductive Kept (s : Socket) : Input → Socket → Prop
  | packet (rid : Nat) (data : Bytes) (answers : List Wrote) : Kept s (.wrte rid data answers) (s.handleWrite rid data answers)
  | okay (rid : Nat) : Kept s (.okay rid) (s.handleOkay rid)
  | stays {i : Input} (nothing : payload i = []) : Kept s i s
  | signalled {ready ev : Events} (some : ev ≠ 0) (wanted : ∀ k, ev.getLsbD k → s.fde.wanted.getLsbD k) :
      Kept s (.select ready) { s with fde := s.fde.signal ev false }
  | quiet {writes : List Wrote} {reads : List Reads} {t : Socket} (same : Same { s with fde := s.fde.taken } t) :
      Kept s (.dispatch writes reads) t
  | blocked {writes : List Wrote} {reads : List Reads} {out : Bytes} {queue : List Bytes} (write : s.fde.events.getLsbD 1)
      (whole : out ++ queue.flatten = s.queue.flatten) (more : Begins queue) : Kept s (.dispatch writes reads)
        { s with fde := s.fde.taken, queue := queue, trace := s.trace ++ [.wrote out] }
  | drained {writes : List Wrote} {reads : List Reads} {t : Socket} {remote : Nat} (write : s.fde.events.getLsbD 1)
      (same : Same (drained { s with fde := s.fde.taken } remote) t) : Kept s (.dispatch writes reads) t

theorem step_kept {s : Socket} (done : step s i = some t) (still : t.Open) : Kept s i t := by
  have isOpen := open_of_step done still
  cases i with
  | wrte rid data answers =>
    simp only [step,if_pos isOpen] at done
    obtain rfl := some.inj done
    exact .packet rid data answers
  | okay rid =>
    simp only [step,if_pos isOpen] at done
    obtain rfl := some.inj done
    exact .okay rid
  | clse | disconnect =>
    simp only [step,if_pos isOpen] at done
    obtain rfl := some.inj done
    exact (Socket.close_not_open _ still).elim
  | select ready =>
    obtain rfl := some.inj done
    split
    · rename_i report
      refine .signalled report.2 fun k bit => ?_
      simp only [BitVec.getLsbD_and,Bool.and_eq_true] at bit
      exact bit.1.2
    · exact .stays rfl
  | dispatch writes reads =>
    simp only [step] at done
    split at done
    · rcases eventFunc_cases (s := { s with fde := s.fde.taken }) isOpen done still with
        ⟨_,same⟩ | ⟨write,_,out,queue,whole,more,rfl⟩ | ⟨write,remote,same⟩
      · exact .quiet same
      · exact .blocked write whole more
      · exact .drained write same
    · obtain rfl := some.inj done
      exact .stays rfl

theorem kept_flow {s : Socket} (flow : Flow s) (kept : Kept s i t) (still : t.Open) : Flow t := by
  cases kept with
  | packet => exact handleWrite_flow flow still
  | okay => exact handleOkay_same.flow flow
  | stays => exact flow
  | signalled _ wanted => exact select_flow flow wanted
  | quiet same => exact same.flow (taken_flow flow)
  | blocked write whole more => exact blocked_flow (taken_flow flow) (flow.due write) whole more.ne_nil
  | drained _ same => exact same.flow (drained_flow (taken_flow flow) rfl)
theorem kept_paced {s : Socket} (flow : Flow s) (paced : Paced s) (waits : Waits s i) (kept : Kept s i t)
    (still : t.Open) : Paced t := by
  have taken : Paced { s with fde := s.fde.taken } := ⟨paced.count,paced.answered⟩
  cases kept with
  | packet => exact handleWrite_paced flow paced waits still
  | okay => exact handleOkay_same.paced paced
  | stays => exact paced
  | signalled => exact ⟨paced.count,paced.answered⟩
  | quiet same => exact same.paced taken
  | blocked write whole more => exact blocked_paced taken (flow.due write) more.ne_nil
  | drained write same => exact same.paced (drained_paced (taken_flow flow) taken (flow.due write))
theorem kept_received {s : Socket} (kept : Kept s i t) (still : t.Open) :
    received t.trace = received s.trace ++ payload i := by
  cases kept with
  | packet =>
    rcases handleWrite_cases still with ⟨_,equal⟩ | ⟨_,equal⟩ | ⟨_,_,_,_,_,equal⟩
    · simp [equal,received,payload]
    · simp [equal,received,payload]
    · simp [equal,received,payload]
  | stays nothing => rw [nothing,append_nil]
  | okay | signalled => exact (append_nil _).symm
  | quiet same =>
    rw [same.received]
    exact (append_nil _).symm
  | blocked => simp [received,payload]
  | drained _ same =>
    rw [same.received]
    simp [drained,received,payload]

/-! ## Whole runs -/

theorem readLoop_plain {reads : List Reads} (plain : .ended ∉ reads) (data : Bytes) : (readLoop reads data).2 = false := by
  fun_induction readLoop reads data with
  | case5 => simp at plain
  | _ => simp_all

theorem readable_plain {s : Socket} {reads : List Reads} (isOpen : s.Open) (plain : .ended ∉ reads) : (s.readable reads).Open := by
  obtain ⟨t,_,still,equal⟩ := readable_cases s reads
  rw [equal,readLoop_plain plain,if_neg Bool.false_ne_true]
  exact still.mpr isOpen

theorem eventFunc_plain {s : Socket} {reads : List Reads} (isOpen : s.Open)
    (peer : s.peer.isSome) (plain : Plain (.dispatch writes reads)) :
    ∃ t, s.eventFunc ev writes reads = some t ∧ t.Open := by
  obtain ⟨remote,peer⟩ := isSome_iff_exists.mp peer
  have readPart (s : Socket) (isOpen : s.Open) : (if has ev fdeRead then s.readable reads else s).Open := by
    split
    · exact readable_plain isOpen plain.2
    · exact isOpen
  unfold Socket.eventFunc
  split
  · simp only [Socket.log_closing,isOpen.1,Bool.false_eq_true,if_false,Socket.log_peer,peer]
    rcases drain_plain s.queue plain.1 with done | again
    · rw [done]
      exact ⟨_,rfl,readPart _ ⟨rfl,isOpen.2⟩⟩
    · rw [again]
      exact ⟨_,rfl,rfl,isOpen.2⟩
  · exact ⟨_,rfl,readPart _ isOpen⟩

theorem handleWrite_plain {s : Socket} (isOpen : s.Open)
    (plain : ∀ a ∈ answers, a.Plain) : (s.handleWrite rid data answers).Open := by
  unfold Socket.handleWrite Socket.enqueue
  simp only [Socket.log_queue]
  by_cases empty : s.queue = []
  · simp only [empty,ne_eq,not_true_eq_false,if_false]
    rcases (push_plain data plain).1 with done | again
    · rw [done]
      exact isOpen
    · rw [again]
      exact isOpen
  · simp only [ne_eq,empty,not_false_eq_true,if_true]
    exact isOpen

theorem step_plain {s : Socket} (flow : Flow s) (isOpen : s.Open) (plain : Plain i) :
    ∃ t, step s i = some t ∧ t.Open := by
  cases i with
  | wrte rid data answers =>
    simp only [step,if_pos isOpen]
    exact ⟨_,rfl,handleWrite_plain isOpen plain⟩
  | okay rid =>
    simp only [step,if_pos isOpen]
    exact ⟨_,rfl,isOpen⟩
  | clse => cases plain
  | disconnect => cases plain
  | select ready =>
    refine ⟨_,rfl,?_⟩
    split <;> exact isOpen
  | dispatch writes reads =>
    simp only [step]
    split
    · exact eventFunc_plain (s := { s with fde := s.fde.taken }) isOpen flow.peer plain
    · exact ⟨s,rfl,isOpen⟩

theorem opened_flow (id remote : Nat) (fd : Int) : Flow (opened id remote fd) where
  bytes := rfl
  peer := rfl
  watched := by simp only [opened,Fde.installed,Fde.blank,Fdevent.add_wanted]; decide
  due bit := by
    have old := Fdevent.set_events (show (((Fde.installed fd).add fdeRead).events.getLsbD 1) from bit)
    simp [Fde.installed,Fde.blank] at old
theorem opened_paced (id remote : Nat) (fd : Int) : Paced (opened id remote fd) where
  count := rfl
  answered := by
    have none : Answered [] := by
      intro front _ _ back split
      simp at split
    exact answered_snoc none fun _ _ _ => ⟨rfl,rfl⟩

theorem run_plain {s : Socket} (flow : Flow s) (isOpen : s.Open) (plain : ∀ i ∈ inputs, Plain i) :
    ∃ t, run step s inputs = some t ∧ t.Open ∧ Flow t ∧
      received t.trace = received s.trace ++ inputs.flatMap payload := by
  induction inputs generalizing s with
  | nil => exact ⟨s,rfl,isOpen,flow,(append_nil _).symm⟩
  | cons i rest ih =>
    obtain ⟨next,first,still⟩ := step_plain flow isOpen (plain i mem_cons_self)
    obtain ⟨t,runs,isOpen,flow,received⟩ :=
      ih (kept_flow flow (step_kept first still) still) still fun j member => plain j (mem_cons_of_mem _ member)
    refine ⟨t,run_cons.mpr ⟨next,first,runs⟩,isOpen,flow,?_⟩
    rw [received,kept_received (step_kept first still) still,flatMap_cons,append_assoc]

theorem run_paced {s : Socket} (flow : Flow s) (paced : Paced s) (isOpen : s.Open)
    (plain : ∀ i ∈ inputs, Plain i) (waits : Meets step Waits s inputs) (runs : run step s inputs = some t) : Paced t := by
  induction inputs generalizing s with
  | nil => exact some.inj runs ▸ paced
  | cons i rest ih =>
    obtain ⟨next,first,behind⟩ := run_cons.mp runs
    obtain ⟨same,done,still⟩ := step_plain flow isOpen (plain i mem_cons_self)
    obtain rfl := some.inj (done.symm.trans first)
    have kept := step_kept first still
    exact ih (kept_flow flow kept still) (kept_paced flow paced waits.1 kept still) still
      (fun j member => plain j (mem_cons_of_mem _ member)) (waits.2 same first) behind

/-- The answers of a descriptor that takes every packet of a queue at once. -/
def takesAll (queue : List Bytes) : List Wrote := List.replicate queue.length (.accepts queue.flatten.length)

theorem writable_answers {s : Socket} (flow : Flow s) (isOpen : s.Open) (queued : s.queue ≠ []) :
    ∃ t, run step s [.select fdeWrite,.dispatch (takesAll s.queue) []] = some t ∧
      t.queue = [] ∧ okays t.trace = okays s.trace + 1 := by
  have wanted := flow.watched.mp queued
  have ev : ∀ w : Events, w.getLsbD 1 → fdeWrite &&& w &&& (fdeRead ||| fdeWrite ||| Fdevent.fdeError) = fdeWrite := by
    decide
  have signalled : step s (.select fdeWrite) = some { s with fde := s.fde.signal fdeWrite false } := by
    simp only [step,ev _ wanted]
    rw [if_pos ⟨isOpen.2,by decide⟩]
  have plain : ∀ a ∈ takesAll s.queue, a.Plain := by
    intro a member
    obtain ⟨_,rfl⟩ := mem_replicate.mp member
    trivial
  let calling : Socket := { s with fde := (s.fde.signal fdeWrite false).taken }
  have isCalling : calling.Open := isOpen
  obtain ⟨t,called,still⟩ : ∃ t, calling.eventFunc (s.fde.signal fdeWrite false).events (takesAll s.queue) [] = some t ∧
      t.Open := eventFunc_plain isCalling flow.peer ⟨plain,not_mem_nil⟩
  have whole : (drain s.queue (takesAll s.queue)).fin = .done := by
    apply drain_all le_rfl
    intro p member
    have part := (sublist_flatten_of_mem member).length_le
    omega
  have write : (s.fde.signal fdeWrite false).events.getLsbD 1 := by
    simp only [Fde.signal,bit_add_write]
  refine ⟨t,run_cons.mpr ⟨_,signalled,run_cons.mpr ⟨t,?_,rfl⟩⟩,?_⟩
  · simp only [step]
    rw [if_pos ⟨isOpen.2,rfl⟩]
    exact called
  rcases eventFunc_cases isCalling called still with ⟨quiet,_⟩ | ⟨_,blocked,_⟩ | ⟨_,remote,same⟩
  · exact (quiet write).elim
  · exact (blocked whole).elim
  · refine ⟨same.queue,?_⟩
    rw [same.okays]
    simp [drained,calling,okays]

/-- For every interleaving of packets, reports and callbacks on an open socket whose writes take bytes
    or would block, the payloads are written or queued in order. If the host waits for each
    acknowledgement, every packet but a queued one has one, after all its bytes. -/
theorem packets_flow (id remote : Nat) (fd : Int) {inputs : List Input} (plain : ∀ i ∈ inputs, Plain i) :
    ∃ s, run step (opened id remote fd) inputs = some s ∧ received s.trace = inputs.flatMap payload ∧
      written s.trace ++ s.queue.flatten = (inputs.flatMap payload).flatten ∧
      (Meets step Waits (opened id remote fd) inputs → Answered s.trace ∧
        okays s.trace + (if s.queue = [] then 0 else 1) = 1 + (inputs.flatMap payload).length ∧
        (s.queue ≠ [] → ∃ t, run step s [.select fdeWrite, .dispatch (takesAll s.queue) []] = some t ∧
          t.queue = [] ∧ okays t.trace = okays s.trace + 1)) := by
  have isOpen : (opened id remote fd).Open := ⟨rfl, rfl⟩
  have flow := opened_flow id remote fd
  obtain ⟨s, runs, still, flow', got⟩ := run_plain flow isOpen plain
  have packets : received s.trace = inputs.flatMap payload := got
  refine ⟨s, runs, packets, packets ▸ flow'.bytes, ?_⟩
  intro waits
  have paced := run_paced flow (opened_paced id remote fd) isOpen plain waits runs
  exact ⟨paced.answered, packets ▸ paced.count, writable_answers flow' still⟩

def twoPackets : List Input :=
  [.wrte 7 [1, 2, 3] [.accepts 0, .again], .select fdeWrite, .dispatch [.accepts 5] [], .wrte 7 [4] [.accepts 0]]

theorem twoPackets_flow : Meets step Waits (opened 1 7 3) twoPackets ∧ ∃ s, run step (opened 1 7 3) twoPackets = some s ∧
    written s.trace ++ s.queue.flatten = [1, 2, 3, 4] ∧ okays s.trace + (if s.queue = [] then 0 else 1) = 3 := by
  have plain : ∀ i ∈ twoPackets, Plain i := by
    simp [twoPackets, Plain, Wrote.Plain]
  have waits : Meets step Waits (opened 1 7 3) twoPackets := by
    decide
  obtain ⟨s, runs, _, bytes, answers⟩ := packets_flow 1 7 3 plain
  exact ⟨waits, s, runs, bytes, (answers waits).2.1⟩

/-! ## Packets to the host -/

/-- The number of packets A_WRTE. -/
def sent (trace : List Event) : Nat :=
  trace.countP fun
    | .wrte _ _ _ => true
    | _ => false
def acknowledges : Input → Bool
  | .okay _ => true
  | _ => false

/-- A packet may come without a word of the host: there is a peer, and a read is wanted or pending. -/
def Due (s : Socket) : Prop := s.peer.isSome ∧ (s.fde.wanted.getLsbD 0 ∨ s.fde.events.getLsbD 0)

instance (s : Socket) : Decidable (Due s) := inferInstanceAs (Decidable (_ ∧ _))

/-- The packets that were sent and the one that may come. -/
def spent (s : Socket) : Nat := sent s.trace + if Due s then 1 else 0

variable {s u : Socket} {reads : List Reads}

theorem spent_quiet (same : sent t.trace = sent s.trace) (due : Due t → Due s) : spent t ≤ spent s := by
  unfold spent
  split_ifs <;> simp_all
theorem spent_close (same : sent t.trace = sent s.trace) : spent t.close ≤ spent s := by
  have closed : t.close.peer = none ∧ sent t.close.trace = sent t.trace := by
    unfold Socket.close Socket.closePeer
    cases peer : t.peer <;> simp only <;> split <;> simp [Socket.destroy,Socket.log,peer,sent]
  exact spent_quiet (closed.2.trans same) fun due => by simp [Due,closed.1] at due
/-- A change of the wanted events that adds no read. -/
theorem spent_set (trace : sent t.trace = sent s.trace) (peer : t.peer = s.peer) (fde : t.fde = s.fde.set ev)
    (reads : ev.getLsbD 0 → s.fde.wanted.getLsbD 0) : spent t ≤ spent s := by
  refine spent_quiet trace fun ⟨known,due⟩ => ⟨peer ▸ known,?_⟩
  rw [fde,Fdevent.set_wanted] at due
  exact due.imp reads Fdevent.set_events

theorem spent_readable (same : sent t.trace = sent s.trace) (idle : ¬ t.fde.events.getLsbD 0)
    (due : t.peer.isSome → Due s) : spent (t.readable reads) ≤ spent s := by
  have quiet : spent t ≤ spent s := spent_quiet same fun now => due now.1
  have finish {r : Socket} (part : spent r ≤ spent s) : spent (if (readLoop reads []).2 then r.close else r) ≤ spent s := by
    split
    · exact (spent_close rfl).trans part
    · exact part
  refine finish ?_
  split
  · exact quiet
  split
  · exact quiet
  -- after a packet no read is wanted
  rename_i remote peer some
  have done : ¬ Due ({ t with fde := t.fde.del fdeRead }.log [.wrte t.id remote (readLoop reads []).1]) := by
    rintro ⟨_,bit | bit⟩
    · simp [fdeRead] at bit
    · exact idle (Fdevent.set_events bit)
  rw [spent,spent,if_neg done,if_pos (due (by simp [peer])),← same]
  simp [sent]

theorem spent_write (s : Socket) (data : Bytes) (answers : List Wrote) : spent (s.handleWrite rid data answers) ≤ spent s := by
  have enqueued : spent ((s.log [.received data]).enqueue data answers).1 ≤ spent s := by
    unfold Socket.enqueue
    split
    · exact spent_set (by simp [sent]) rfl rfl (by simp [fdeWrite])
    dsimp only
    split
    · exact spent_quiet (by simp [sent]) id
    · exact spent_set (by simp [sent]) rfl rfl (by simp [fdeWrite])
    · exact spent_close (by simp [sent])
    · exact spent_close (by simp [sent])
  unfold Socket.handleWrite
  dsimp only
  split
  · refine (spent_quiet ?_ fun due => ?_).trans enqueued
    · simp [sent]
    · exact due
  · exact enqueued

theorem spent_event (idle : ¬ t.fde.events.getLsbD 0) (due : Due t → Due s)
    (same : sent t.trace = sent s.trace) (read : ev.getLsbD 0 → t.peer.isSome → Due s)
    (done : t.eventFunc ev writes reads = some u) : spent u ≤ spent s := by
  have readPart {r : Socket} (less : spent r ≤ spent t) (trace : sent r.trace = sent t.trace) (peer : r.peer = t.peer)
      (still : ¬ r.fde.events.getLsbD 0) : spent (if has ev fdeRead then r.readable reads else r) ≤ spent s := by
    rw [Fdevent.has_read]
    split
    · exact spent_readable (trace.trans same) still fun known => read ‹_› (peer ▸ known)
    · exact less.trans (spent_quiet same due)
  unfold Socket.eventFunc at done
  split at done
  · dsimp only at done
    have logged : sent (t.trace ++ [.wrote (drain t.queue writes).out]) = sent s.trace := by simpa [sent] using same
    split at done
    · split at done
      · cases done
        exact spent_close logged
      split at done <;> cases done
      refine readPart (spent_set (by simp [sent]) rfl rfl ?_) (by simp [sent]) rfl (mt Fdevent.set_events idle)
      simp [fdeWrite]
    · cases done
      exact spent_quiet logged due
    · cases done
      exact spent_close logged
  · cases done
    exact readPart le_rfl rfl rfl idle

theorem spent_step (done : step s i = some t) : spent t ≤ spent s + if acknowledges i then 1 else 0 := by
  cases i with
  | wrte rid data answers =>
    cases done
    split
    · exact spent_write ..
    · exact le_rfl
  | okay rid =>
    cases done
    split
    · change sent s.trace + _ ≤ sent s.trace + _ + 1
      split_ifs <;> omega
    · exact Nat.le_add_right ..
  | clse | disconnect =>
    cases done
    split
    · exact spent_close rfl
    · exact le_rfl
  | select ready =>
    cases done
    split
    · refine spent_quiet rfl (And.imp_right fun due => ?_)
      simp only [Fde.signal,BitVec.getLsbD_or,BitVec.getLsbD_and,Bool.or_eq_true,Bool.and_eq_true] at due
      tauto
    · exact le_rfl
  | dispatch writes reads =>
    simp only [step] at done
    split at done
    · refine spent_event (t := { s with fde := s.fde.taken }) (by simp [Fde.taken]) (And.imp_right fun due => ?_) rfl
        (fun bit known => ⟨known,.inr bit⟩) done
      exact .inl (by simpa [Fde.taken] using due)
    · cases done
      exact le_rfl

theorem spent_run (runs : run step s inputs = some t) :
    spent t ≤ spent s + inputs.countP acknowledges := by
  induction inputs generalizing s with
  | nil =>
    cases runs
    exact le_rfl
  | cons i rest ih =>
    obtain ⟨next,first,behind⟩ := run_cons.mp runs
    have here := spent_step first
    have later := ih behind
    rw [countP_cons]
    omega

/-- In every run the socket has sent at most one packet more than the host has acknowledged. -/
theorem packets_acknowledged (id remote : Nat) (fd : Int) {inputs : List Input}
    (runs : run step (opened id remote fd) inputs = some t) : sent t.trace ≤ 1 + inputs.countP acknowledges := by
  have first : spent (opened id remote fd) = 1 := by simp [spent,sent,opened,Due,fdeRead,Fde.installed,Fde.blank]
  have whole := spent_run runs
  unfold spent at whole first
  omega

def twoReads : List Input :=
  [.select fdeRead, .dispatch [] [.bytes 7 []], .okay 7, .select fdeRead, .dispatch [] [.bytes 8 []]]
theorem twoReads_acknowledged : ∃ t, run step (opened 1 7 3) twoReads = some t ∧ sent t.trace = 2 ∧
    sent t.trace ≤ 1 + twoReads.countP acknowledges := by
  obtain ⟨t,runs,both⟩ : ∃ t, run step (opened 1 7 3) twoReads = some t ∧ sent t.trace = 2 := ⟨_,rfl,by decide⟩
  exact ⟨t,runs,both,packets_acknowledged 1 7 3 runs⟩

end Recovery.SocketFlow
