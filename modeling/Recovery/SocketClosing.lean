import Recovery.SocketFlow

/-!
What becomes of the queue of a local socket that is closed. The socket waits until it is writable,
and no read event should come any more.
-/
namespace Recovery.SocketClosing
open Memory Machines LocalSocket SocketFlow List Option
open Fdevent (Fde Events fdeRead fdeWrite has)

/-- A step other than a callback of the socket itself, with a read pending for it. -/
def StaleRead (s : Socket) : Input → Prop
  | .dispatch _ _ => False
  | _ => s.fde.events.getLsbD 0

/-- A state of a socket that was opened. -/
def Reached (s : Socket) : Prop := ∃ id remote fd inputs, run step (opened id remote fd) inputs = some s

/-! ## An open socket -/

structure Calm (f : Fde) : Prop where
  wanted : ∀ k, f.events.getLsbD k → f.wanted.getLsbD k
  pending : f.pending = false ↔ f.events = 0

variable {f : Fde} {t : Socket} {ev : Events} {s c : Socket} {i : Input} {reads : List Reads} {writes : List Wrote}

theorem calm_idle (pending : f.pending = false) (events : f.events = 0) : Calm f where
  wanted k bit := by simp [events] at bit
  pending := iff_of_true pending events

theorem calm_add {events : Events} (calm : Calm f) : Calm (f.add events) := by
  by_cases idle : f.pending = false
  · obtain ⟨pending,same⟩ := Fdevent.set_idle (f.wanted ||| events) idle
    exact calm_idle pending (same.trans (calm.pending.mp idle))
  unfold Fde.add Fde.set
  split
  · exact calm
  have none : f.events &&& ~~~ (f.wanted ||| events) = 0 := by
    apply BitVec.eq_of_getLsbD_eq
    intro k small
    by_cases bit : f.events.getLsbD k
    · simp [bit,calm.wanted k bit,small]
    · simp [bit]
  rw [if_pos (by simpa using idle)]
  simp only [none]
  exact calm_idle (by simp) rfl

private theorem calm_signal {events : Events} (calm : Calm f) (some : events ≠ 0)
    (wanted : ∀ k, events.getLsbD k → f.wanted.getLsbD k) : Calm (f.signal events false) where
  wanted k bit := by
    simp only [Fde.signal,BitVec.getLsbD_or,Bool.or_eq_true] at bit
    rcases bit with old | new
    · exact calm.wanted k old
    · exact wanted k new
  pending := Fdevent.signal_busy some

/-- The queue of an open socket begins with bytes to write, and no write has failed. -/
structure Steady (s : Socket) : Prop where
  queue : s.queue ≠ [] → Begins s.queue
  calm : Calm s.fde
  broken : s.broken = false

private theorem opened_steady (id remote : Nat) (fd : Int) : Steady (opened id remote fd) where
  queue none := (none rfl).elim
  calm := calm_add (calm_idle rfl rfl)
  broken := rfl

private theorem begins_append {queue more : List Bytes} (begins : Begins queue) : Begins (queue ++ more) := by
  obtain ⟨first,rest,rfl,bytes⟩ := begins
  exact ⟨first,rest ++ more,rfl,bytes⟩

theorem Same.steady (same : Same s t) (steady : Steady s) (idle : s.fde.pending = false) : Steady t where
  queue := by
    rw [same.queue]
    exact steady.queue
  calm := by
    obtain ⟨pending,events⟩ := same.idle idle
    exact calm_idle pending (events.trans (steady.calm.pending.mp idle))
  broken := same.broken.trans steady.broken

private theorem kept_steady (steady : Steady s) (kept : Kept s i t) (still : t.Open) : Steady t := by
  have taken : Steady { s with fde := s.fde.taken } := ⟨steady.queue,calm_idle rfl rfl,steady.broken⟩
  cases kept with
  | packet =>
    rcases handleWrite_cases still with ⟨queued,equal⟩ | ⟨_,equal⟩ | ⟨_,_,rest,_,more,equal⟩
    · rw [equal]
      exact ⟨fun _ => begins_append (steady.queue queued),calm_add steady.calm,steady.broken⟩
    · rw [equal]
      exact ⟨steady.queue,steady.calm,steady.broken⟩
    · rw [equal]
      exact ⟨fun _ => ⟨rest,[],rfl,more⟩,calm_add steady.calm,steady.broken⟩
  | okay => exact ⟨steady.queue,calm_add steady.calm,steady.broken⟩
  | stays => exact steady
  | signalled some wanted => exact ⟨steady.queue,calm_signal steady.calm some wanted,steady.broken⟩
  | quiet same => exact Same.steady same taken rfl
  | blocked _ _ more => exact ⟨fun _ => more,taken.calm,taken.broken⟩
  | drained _ same =>
    have idle := Fdevent.set_idle (f := s.fde.taken) (s.fde.taken.wanted &&& ~~~ fdeWrite) rfl
    exact Same.steady same ⟨fun none => (none rfl).elim,calm_idle idle.1 idle.2,taken.broken⟩ idle.1

private theorem reached_open (reached : Reached s) (isOpen : s.Open) : Flow s ∧ Steady s := by
  obtain ⟨id,remote,fd,inputs,runs⟩ := reached
  have keeps {s t : Socket} {i : Input} (holds : s.Open → Flow s ∧ Steady s) (done : step s i = some t) :
      t.Open → Flow t ∧ Steady t := by
    intro still
    obtain ⟨flow,steady⟩ := holds (open_of_step done still)
    have kept := step_kept done still
    exact ⟨kept_flow flow kept still,kept_steady steady kept still⟩
  exact run_invariant keeps (fun _ => ⟨opened_flow _ _ _,opened_steady _ _ _⟩) runs isOpen

/-! ## The close -/

@[simp] theorem closePeer_written (s : Socket) : written s.closePeer.trace = written s.trace := by
  unfold Socket.closePeer
  split
  · rfl
  · rw [Socket.log_trace,written_append]
    exact append_nil _
@[simp] theorem closePeer_queue (s : Socket) : s.closePeer.queue = s.queue := by
  unfold Socket.closePeer
  split <;> rfl
@[simp] theorem closePeer_broken (s : Socket) : s.closePeer.broken = s.broken := by
  unfold Socket.closePeer
  split <;> rfl

private theorem close_closing (closing : s.closing) : s.close = s.closePeer.destroy := if_pos (.inl closing)
theorem close_queued (isOpen : s.Open) (queued : s.queue ≠ []) :
    s.close = { s.closePeer with closing := true, fde := s.fde.del fdeRead } := by
  apply if_neg
  rintro (closing | empty)
  · rw [isOpen.1] at closing
    cases closing
  · exact queued empty
theorem close_empty (empty : s.queue = []) : s.close.freed := by
  unfold Socket.close
  rw [if_pos (.inr empty)]
  rfl

@[simp] theorem close_broken (s : Socket) : s.close.broken = s.broken := by
  unfold Socket.close
  split
  · exact closePeer_broken s
  · exact closePeer_broken s
@[simp] theorem close_written (s : Socket) : written s.close.trace = written s.trace := by
  unfold Socket.close
  split
  · exact closePeer_written s
  · exact closePeer_written s

theorem bit_del_read_zero : ∀ w : Events, (w &&& ~~~ fdeRead).getLsbD 0 = false := by decide

theorem close_unread (isOpen : s.Open) (kept : s.close.freed = false) :
    s.close.fde.wanted.getLsbD 0 = false ∧ (s.close.fde.events.getLsbD 0 → s.fde.events.getLsbD 0) := by
  have queued : s.queue ≠ [] := by
    intro empty
    rw [close_empty empty] at kept
    cases kept
  rw [close_queued isOpen queued]
  simp only [Fdevent.del_wanted,bit_del_read_zero,true_and]
  exact Fdevent.set_events

private theorem handleWrite_closes {rid : Nat} {data : Bytes} {answers : List Wrote} (isOpen : s.Open)
    (closing : (s.handleWrite rid data answers).closing) : (s.handleWrite rid data answers).freed := by
  unfold Socket.handleWrite Socket.enqueue at closing ⊢
  simp only [Socket.log_queue] at closing ⊢
  by_cases empty : s.queue = []
  · simp only [empty,ne_eq,not_true_eq_false,if_false] at closing ⊢
    cases fin : (push false answers data).fin with
    | done => simp [fin,isOpen.1] at closing
    | again => simp [fin,isOpen.1] at closing
    | intr => exact close_empty empty
    | failed => exact close_empty rfl
  · simp [empty,isOpen.1] at closing

private theorem readable_unread (isOpen : s.Open) (idle : s.fde.pending = false)
    (events : s.fde.events = 0) (closing : (s.readable reads).closing) (kept : (s.readable reads).freed = false) :
    (s.readable reads).fde.wanted.getLsbD 0 = false ∧ (s.readable reads).fde.events.getLsbD 0 = false := by
  obtain ⟨t,same,still,equal⟩ := readable_cases s reads
  rw [equal] at closing kept ⊢
  have isOpen' := still.mpr isOpen
  split at closing
  · rename_i ended
    rw [if_pos ended] at kept ⊢
    obtain ⟨wanted,stale⟩ := close_unread isOpen' kept
    refine ⟨wanted,Bool.eq_false_iff.mpr fun bit => ?_⟩
    have old := stale bit
    rw [(same.idle idle).2,events] at old
    simp at old
  · rw [isOpen'.1] at closing
    cases closing

theorem readPart_unread (isOpen : s.Open) (idle : s.fde.pending = false)
    (events : s.fde.events = 0) (equal : (if has ev fdeRead then s.readable reads else s) = t)
    (closing : t.closing) (kept : t.freed = false) :
    t.fde.wanted.getLsbD 0 = false ∧ t.fde.events.getLsbD 0 = false := by
  subst equal
  split at closing
  · rename_i read
    rw [if_pos read] at kept ⊢
    exact readable_unread isOpen idle events closing kept
  · rw [isOpen.1] at closing
    cases closing

theorem eventFunc_closes (isOpen : s.Open)
    (idle : s.fde.pending = false) (events : s.fde.events = 0) (done : s.eventFunc ev writes reads = some t)
    (closing : t.closing) (kept : t.freed = false) :
    t.broken ∨ (t.fde.wanted.getLsbD 0 = false ∧ t.fde.events.getLsbD 0 = false) := by
  unfold Socket.eventFunc at done
  split at done
  · simp only [Socket.log_closing,isOpen.1,Bool.false_eq_true,if_false,Socket.log_peer] at done
    split at done
    · split at done
      · cases done
      obtain ⟨pending,same⟩ := Fdevent.set_idle (s.fde.wanted &&& ~~~ fdeWrite) idle
      right
      refine readPart_unread ?_ ?_ ?_ (some.inj done) closing kept
      · exact ⟨rfl,isOpen.2⟩
      · exact pending
      · exact same.trans events
    · obtain rfl := some.inj done
      cases closing
    · obtain rfl := some.inj done
      left
      exact close_broken _
  · right
    exact readPart_unread isOpen idle events (some.inj done) closing kept

theorem closes_cases (isOpen : s.Open) (done : step s i = some c) (closing : c.closing)
    (kept : c.freed = false) :
    (∃ writes reads, i = .dispatch writes reads ∧
      Socket.eventFunc { s with fde := s.fde.taken } s.fde.events writes reads = some c) ∨
    ((i = .clse ∨ i = .disconnect) ∧ ∃ peer, c = Socket.close { s with peer := peer }) := by
  have open' : ¬ s.closing := by
    rw [isOpen.1]
    simp
  cases i with
  | wrte rid data answers =>
    simp only [step,if_pos isOpen] at done
    obtain rfl := some.inj done
    rw [handleWrite_closes isOpen closing] at kept
    cases kept
  | okay rid =>
    simp only [step,if_pos isOpen] at done
    obtain rfl := some.inj done
    exact (open' closing).elim
  | clse =>
    simp only [step,if_pos isOpen] at done
    exact .inr ⟨.inl rfl,s.peer,(some.inj done).symm⟩
  | disconnect =>
    simp only [step,if_pos isOpen] at done
    exact .inr ⟨.inr rfl,none,(some.inj done).symm⟩
  | select ready =>
    obtain rfl := some.inj done
    split at closing
    · exact (open' closing).elim
    · exact (open' closing).elim
  | dispatch writes reads =>
    simp only [step] at done
    split at done
    · exact .inl ⟨writes,reads,rfl,done⟩
    · rw [← some.inj done] at closing
      exact (open' closing).elim

theorem closes_unread (isOpen : s.Open) (done : step s i = some c) (closing : c.closing)
    (kept : c.freed = false) :
    c.broken ∨ (c.fde.wanted.getLsbD 0 = false ∧ (c.fde.events.getLsbD 0 → StaleRead s i)) := by
  rcases closes_cases isOpen done closing kept with ⟨writes,reads,rfl,called⟩ | ⟨kind,peer,rfl⟩
  · rcases eventFunc_closes (s := { s with fde := s.fde.taken }) isOpen rfl rfl called closing kept with
      broken | ⟨wanted,events⟩
    · exact .inl broken
    · exact .inr ⟨wanted,fun bit => by rw [events] at bit; cases bit⟩
  · obtain ⟨wanted,stale⟩ := close_unread (s := { s with peer := peer }) isOpen kept
    rcases kind with rfl | rfl
    · exact .inr ⟨wanted,stale⟩
    · exact .inr ⟨wanted,stale⟩

/-! ## The closing socket -/

/-- A closing socket that owes some bytes, all that are written and queued. It gets no read events. -/
structure Closing (owed : Bytes) (s : Socket) : Prop where
  closing : s.closing
  kept : s.freed = false
  wanted : s.fde.wanted.getLsbD 0 = false
  events : s.fde.events.getLsbD 0 = false
  bytes : written s.trace ++ s.queue.flatten = owed

/-- What may become of it. -/
def Outcome (owed : Bytes) (s : Socket) : Prop :=
  ¬ s.Open ∧ (s.broken ∨ Closing owed s ∨ (s.freed ∧ written s.trace = owed))

theorem readable_broken (broken : s.broken) : (s.readable reads).broken := by
  obtain ⟨t,same,_,equal⟩ := readable_cases s reads
  rw [equal]
  split
  · rw [close_broken,same.broken,broken]
  · rw [same.broken,broken]

theorem eventFunc_broken (broken : s.broken)
    (done : s.eventFunc ev writes reads = some t) : t.broken := by
  have readPart (s : Socket) (broken : s.broken) : (if has ev fdeRead then s.readable reads else s).broken := by
    split
    · exact readable_broken broken
    · exact broken
  unfold Socket.eventFunc at done
  split at done
  · simp only at done
    split at done
    · split at done
      · obtain rfl := some.inj done
        rw [close_broken]
        exact broken
      split at done
      · cases done
      · obtain rfl := some.inj done
        exact readPart _ broken
    · obtain rfl := some.inj done
      exact broken
    · obtain rfl := some.inj done
      exact close_broken _
  · obtain rfl := some.inj done
    exact readPart _ broken

theorem eventFunc_closing {owed : Bytes}
    (closing : Closing owed s) (unread : ev.getLsbD 0 = false) (done : s.eventFunc ev writes reads = some t) :
    t.broken ∨ Closing owed t ∨ (t.freed ∧ written t.trace = owed) := by
  have whole := drain_split s.queue writes
  have bytes := closing.bytes
  unfold Socket.eventFunc at done
  rw [Fdevent.has_read,unread,if_neg Bool.false_ne_true] at done
  simp only [Socket.log_closing,closing.closing,if_true] at done
  split at done
  · split at done
    · rename_i fin
      obtain rfl := some.inj done
      rw [drain_done fin,flatten_nil,append_nil] at whole
      right
      right
      refine ⟨close_empty (drain_done fin),?_⟩
      rw [close_written]
      simpa [whole,written] using bytes
    · obtain rfl := some.inj done
      right
      left
      refine ⟨rfl,closing.kept,closing.wanted,closing.events,?_⟩
      rw [← whole] at bytes
      simpa [written] using bytes
    · obtain rfl := some.inj done
      left
      exact close_broken _
  · obtain rfl := some.inj done
    exact .inr (.inl closing)

theorem step_outcome {owed : Bytes} (outcome : Outcome owed s) (done : step s i = some t) :
    Outcome owed t := by
  obtain ⟨shut,what⟩ := outcome
  refine ⟨fun still => shut (open_of_step done still),?_⟩
  cases i with
  | wrte | okay | clse | disconnect =>
    simp only [step,if_neg shut] at done
    exact some.inj done ▸ what
  | select ready =>
    obtain rfl := some.inj done
    split
    · rcases what with broken | closing | freed
      · exact .inl broken
      · refine .inr (.inl ⟨closing.closing,closing.kept,closing.wanted,?_,closing.bytes⟩)
        simp only [Fde.signal,BitVec.getLsbD_or,BitVec.getLsbD_and,closing.events,closing.wanted]
        simp
      · exact .inr (.inr freed)
    · exact what
  | dispatch writes reads =>
    simp only [step] at done
    split at done
    · rename_i called
      rcases what with broken | closing | ⟨freed,_⟩
      · exact .inl (eventFunc_broken (s := { s with fde := s.fde.taken }) broken done)
      · have taken : Closing owed { s with fde := s.fde.taken } :=
          ⟨closing.closing,closing.kept,closing.wanted,by simp [Fde.taken],closing.bytes⟩
        exact eventFunc_closing taken closing.events done
      · rw [called.1] at freed
        cases freed
    · exact some.inj done ▸ what

theorem readable_ended (s : Socket) : s.readable [.ended] = s.close := by
  unfold Socket.readable
  cases s.peer <;> rfl

theorem stale_loses (closing : c.closing) (kept : c.freed = false) (pending : c.fde.pending)
    (read : c.fde.events.getLsbD 0) (write : c.fde.events.getLsbD 1 = false) :
    ∃ t, run step c [.dispatch [] [.ended]] = some t ∧ t.freed ∧ t.broken = c.broken ∧ written t.trace = written c.trace := by
  let calling : Socket := { c with fde := c.fde.taken }
  have called : step c (.dispatch [] [.ended]) = some calling.close := by
    simp only [step]
    rw [if_pos ⟨kept,pending⟩]
    unfold Socket.eventFunc
    rw [Fdevent.has_write,write,Fdevent.has_read,read,readable_ended]
    rfl
  refine ⟨_,run_cons.mpr ⟨_,called,rfl⟩,?_,close_broken calling,close_written calling⟩
  rw [close_closing (s := calling) closing]
  rfl

theorem calm_close (calm : Calm f) (read : f.events.getLsbD 0) (write : f.wanted.getLsbD 1) :
    (f.del fdeRead).pending ∧ (f.del fdeRead).events.getLsbD 0 ∧ (f.del fdeRead).events.getLsbD 1 = false := by
  have wanted := calm.wanted 0 read
  have pending : f.pending := by
    by_contra idle
    rw [calm.pending.mp (by simpa using idle)] at read
    simp at read
  have changed : f.wanted ≠ f.wanted &&& ~~~ fdeRead := by
    intro same
    rw [same,bit_del_read_zero] at wanted
    cases wanted
  have stays : (f.events &&& ~~~ (f.wanted &&& ~~~ fdeRead)).getLsbD 0 := by
    rw [BitVec.getLsbD_and,BitVec.getLsbD_not,bit_del_read_zero,read]
    rfl
  have dropped : (f.events &&& ~~~ (f.wanted &&& ~~~ fdeRead)).getLsbD 1 = false := by
    rw [BitVec.getLsbD_and,BitVec.getLsbD_not,bit_del_read,write]
    simp
  unfold Fde.del Fde.set
  rw [if_neg changed,if_pos pending]
  refine ⟨?_,stays,dropped⟩
  simp only [decide_eq_true_eq]
  intro none
  rw [none] at stays
  simp at stays

theorem close_loses (isOpen : s.Open) (steady : Steady s) (write : s.fde.wanted.getLsbD 1)
    (read : s.fde.events.getLsbD 0) (kept : s.close.freed = false) :
    ∃ inputs t, run step s.close inputs = some t ∧ t.freed ∧ t.broken = false ∧
      written t.trace ≠ written s.close.trace ++ s.close.queue.flatten := by
  have queued : s.queue ≠ [] := by
    intro empty
    rw [close_empty empty] at kept
    cases kept
  have equal := close_queued isOpen queued
  have object : s.close.fde = s.fde.del fdeRead := by rw [equal]
  have queue : s.close.queue = s.queue := by rw [equal,closePeer_queue]
  obtain ⟨pending,stays,dropped⟩ := calm_close steady.calm read write
  rw [← object] at pending stays dropped
  obtain ⟨t,runs,freed,broken,same⟩ := stale_loses (by rw [equal]) kept pending stays dropped
  refine ⟨_,t,runs,freed,by rw [broken,close_broken,steady.broken],?_⟩
  rw [same,queue]
  obtain ⟨first,rest,begins,bytes⟩ := steady.queue queued
  intro whole
  have none := self_eq_append_right.mp whole
  rw [begins,flatten_cons] at none
  exact bytes (append_eq_nil_iff.mp none).1

/-- For a socket that is closed with a queue, every later run that destroys it without a failed write
    has written the queue, if and only if no read was pending for it when another callback closed it. -/
theorem closing_writes_iff {s c : Socket} {i : Input} (reached : Reached s) (isOpen : s.Open) (done : step s i = some c)
    (closing : c.closing) (kept : c.freed = false) :
    (∀ inputs t, run step c inputs = some t → t.freed → t.broken = false →
      written t.trace = written c.trace ++ c.queue.flatten) ↔ ¬ StaleRead s i := by
  obtain ⟨flow, steady⟩ := reached_open reached isOpen
  constructor
  · intro writes stale
    rcases closes_cases isOpen done closing kept with ⟨_, _, rfl, _⟩ | ⟨kind, peer, rfl⟩
    · exact stale
    have read : s.fde.events.getLsbD 0 := by
      rcases kind with rfl | rfl
      · exact stale
      · exact stale
    have queued : s.queue ≠ [] := by
      intro empty
      rw [close_empty (s := { s with peer := peer }) empty] at kept
      cases kept
    have steady' : Steady { s with peer := peer } := ⟨steady.queue, steady.calm, steady.broken⟩
    obtain ⟨inputs, t, runs, freed, intact, lost⟩ :=
      close_loses (s := { s with peer := peer }) isOpen steady' (flow.watched.mp queued) read kept
    exact lost (writes inputs t runs freed intact)
  · intro quiet inputs t runs freed intact
    have outcome : Outcome (written c.trace ++ c.queue.flatten) c := by
      have shut : ¬ c.Open := by
        intro still
        rw [still.1] at closing
        cases closing
      refine ⟨shut, ?_⟩
      rcases closes_unread isOpen done closing kept with broken | ⟨wanted, stale⟩
      · exact Or.inl broken
      · exact Or.inr (Or.inl ⟨closing, kept, wanted, Bool.eq_false_iff.mpr fun bit => quiet (stale bit), rfl⟩)
    obtain ⟨_, broken | still | ⟨_, bytes⟩⟩ := run_invariant step_outcome outcome runs
    · rw [broken] at intact
      cases intact
    · rw [still.kept] at freed
      cases freed
    · exact bytes

/-- A packet of three bytes, of which the descriptor takes one. -/
def blockedPacket : List Input := [.wrte 7 [1, 2, 3] [.accepts 0, .again]]

theorem blockedPacket_written : ∃ s c, run step (opened 1 7 3) blockedPacket = some s ∧ step s .clse = some c ∧
    c.queue = [[2, 3]] ∧ ∀ inputs t, run step c inputs = some t → t.freed → t.broken = false →
      written t.trace = written c.trace ++ c.queue.flatten := by
  obtain ⟨s, runs, isOpen, events⟩ : ∃ s, run step (opened 1 7 3) blockedPacket = some s ∧ s.Open ∧
      s.fde.events.getLsbD 0 = false := ⟨_, rfl, by decide, by decide⟩
  obtain ⟨c, done, queue, closing, kept⟩ : ∃ c, step s .clse = some c ∧ c.queue = [[2, 3]] ∧ c.closing ∧ c.freed = false := by
    obtain rfl := Option.some.inj runs
    exact ⟨_, rfl, by decide, by decide, by decide⟩
  refine ⟨s, c, runs, done, queue, (closing_writes_iff ⟨1, 7, 3, _, runs⟩ isOpen done closing kept).mpr ?_⟩
  intro stale
  rw [show s.fde.events.getLsbD 0 = true from stale] at events
  cases events

/-- The same with a read that `select` reports before the close; the callback sees an end of file. -/
theorem blockedPacket_lost : ∃ c t, run step (opened 1 7 3) (blockedPacket ++ [.select fdeRead, .clse]) = some c ∧
    c.queue = [[2, 3]] ∧ run step c [.dispatch [] [.ended]] = some t ∧ t.freed ∧ t.broken = false ∧
    written t.trace ≠ written c.trace ++ c.queue.flatten :=
  ⟨_, _, rfl, by decide, rfl, by decide, by decide, by decide⟩

end Recovery.SocketClosing
