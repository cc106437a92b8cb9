import Mathlib.Tactic.IntervalCases
import Recovery.Machines

/-!
The event loop of `fdevent.c`, built on `select`. An event that a descriptor's owner wants is
reported by `select`, waits in the list of pending events and is then delivered.
-/
namespace Recovery.Fdevent
open Machines Option

/-- The bits `FDE_EVENTMASK` of a mask. -/
abbrev Events := BitVec 8
def fdeRead : Events := 1
def fdeWrite : Events := 2
def fdeError : Events := 4
def has (mask bit : Events) : Bool := mask &&& bit ≠ 0

/-- `fdevent`, with its word `state` taken apart: the wanted events, `FDE_ACTIVE` and `FDE_PENDING`.
    `faked` tells whether the pending read was made up by the loop. -/
structure Fde where
  fd : Int
  forceEof : Bool
  wanted : Events
  active : Bool
  pending : Bool
  events : Events
  faked : Bool
  deriving DecidableEq, Repr

namespace Fde

def blank : Fde := ⟨0, false, 0, false, false, 0, false⟩
def installed (fd : Int) : Fde := { blank with fd, active := true }
def removed (f : Fde) : Fde := { f with wanted := 0, active := false, pending := false, events := 0, faked := false }

/-- `fdevent_set`, as far as the object itself goes. -/
def set (f : Fde) (events : Events) : Fde :=
  if f.wanted = events then f
  else if f.pending then
    let left := f.events &&& ~~~ events
    { f with wanted := events, events := left, pending := left ≠ 0, faked := f.faked && has left fdeRead }
  else { f with wanted := events }
def add (f : Fde) (events : Events) : Fde := f.set (f.wanted ||| events)
def del (f : Fde) (events : Events) : Fde := f.set (f.wanted &&& ~~~ events)

/-- New events become pending; `made` if the read among them is made up. -/
def signal (f : Fde) (events : Events) (made : Bool) : Fde :=
  { f with events := f.events ||| events, pending := true, faked := f.faked || (made && !has f.events fdeRead) }
def taken (f : Fde) : Fde := { f with pending := false, events := 0, faked := false }

end Fde

/-- A call of a callback: the object, the events, and what was wanted then. -/
structure Delivery (Id : Type) where
  fde : Id
  events : Events
  wanted : Events
  faked : Bool
  deriving DecidableEq

/-- The objects and the static variables; `delivered` logs the callbacks. -/
structure Loop (Id : Type) where
  fdes : Id → Fde
  fdTable : Int → Option Id
  readFds : Int → Bool
  writeFds : Int → Bool
  errorFds : Int → Bool
  selectN : Int
  listPending : List Id
  delivered : List (Delivery Id)

/-- What `select` answers. The sets tell which bits it leaves, `bad` which descriptors are closed. -/
inductive Selected
  | returned (n : Int) (r w e bad : Int → Bool)
  | eintr
  | ebadf (bad : Int → Bool)
  | failed

section Steps
variable {Id : Type} [DecidableEq Id]

/-- `fdevent_install`; none for `FATAL`. -/
def install (s : Loop Id) (x : Id) (fd : Int) : Option (Loop Id) :=
  if fd < 0 then none
  else some { s with
    fdes := Function.update s.fdes x (.installed fd)
    fdTable := Function.update s.fdTable fd (some x)
    selectN := if fd ≥ s.selectN then fd + 1 else s.selectN }

/-- `select_n` as `fdevent_disconnect` computes it, when the object is still in the table. -/
def highest (s : Loop Id) : Int :=
  ((List.range s.selectN.toNat).filter fun i : Nat => (s.fdTable i).isSome).getLastD 0

def remove (s : Loop Id) (x : Id) : Option (Loop Id) :=
  let f := s.fdes x
  let s := { s with
    listPending := if f.pending then s.listPending.erase x else s.listPending
    fdes := Function.update s.fdes x f.removed }
  if f.active then
    if s.fdTable f.fd ≠ some x then none
    else some { s with
      readFds := Function.update s.readFds f.fd false
      writeFds := Function.update s.writeFds f.fd false
      errorFds := Function.update s.errorFds f.fd false
      selectN := highest s + 1
      fdTable := Function.update s.fdTable f.fd none }
  else some s

/-- `fdevent_update`: the sets follow the wanted events. -/
def update (s : Loop Id) (fd : Int) (events : Events) : Loop Id :=
  { s with
    readFds := Function.update s.readFds fd (has events fdeRead)
    writeFds := Function.update s.writeFds fd (has events fdeWrite)
    errorFds := Function.update s.errorFds fd (has events fdeError) }

def set (s : Loop Id) (x : Id) (events : Events) : Loop Id :=
  let f := s.fdes x
  if f.wanted = events then s
  else
    let s := if f.active then update s f.fd events else s
    { s with
      fdes := Function.update s.fdes x (f.set events)
      listPending := if f.pending ∧ ¬ (f.set events).pending then s.listPending.erase x else s.listPending }
def add (s : Loop Id) (x : Id) (events : Events) : Loop Id := set s x ((s.fdes x).wanted ||| events)
def del (s : Loop Id) (x : Id) (events : Events) : Loop Id := set s x ((s.fdes x).wanted &&& ~~~ events)

/-- The descriptors that `fdevent_process` finds ready, and the reads among them that it made up. -/
structure Ready where
  r : Int → Bool
  w : Int → Bool
  e : Int → Bool
  made : Int → Bool

def Ready.events (ready : Ready) (i : Int) : Events :=
  (if ready.r i then fdeRead else 0) ||| (if ready.w i then fdeWrite else 0) ||| (if ready.e i then fdeError else 0)
def Ready.count (ready : Ready) (i : Int) : Int :=
  (if ready.r i then 1 else 0) + (if ready.w i then 1 else 0) + (if ready.e i then 1 else 0)

def signal (s : Loop Id) (x : Id) (events : Events) (made : Bool) : Loop Id :=
  { s with
    fdes := Function.update s.fdes x ((s.fdes x).signal events made)
    listPending := if (s.fdes x).pending then s.listPending else s.listPending ++ [x] }

/-- One round of the loop over the descriptors, with `n` bits to be found. -/
def visit (ready : Ready) (p : Int × Loop Id) (i : Nat) : Option (Int × Loop Id) :=
  if p.1 > 0 ∧ ready.events i ≠ 0 then
    match p.2.fdTable i with
    | none => none
    | some x => some (p.1 - ready.count i, signal p.2 x (ready.events i) (ready.made i))
  else some p

/-- `fdevent_fd_check`: the descriptors of the table that are closed. -/
def fdCheck (s : Loop Id) (bad : Int → Bool) (i : Int) : Bool := (s.fdTable i).isSome && bad i

/-- The part of `fdevent_process` after `select`. -/
def dispatchReady (s : Loop Id) (n : Int) (r w e bad : Int → Bool) : Option (Loop Id) :=
  let range := List.range s.selectN.toNat
  let found : Int × Ready :=
    if n ≤ 0 then
      (range.countP fun i : Nat => fdCheck s bad i, ⟨fun i => r i || fdCheck s bad i, w, e, fun i => fdCheck s bad i && !r i⟩)
    else (n, ⟨r, w, e, fun _ => false⟩)
  (range.foldlM (visit found.2) (found.1, s)).map Prod.snd

def process (s : Loop Id) : Selected → Option (Loop Id)
  | .returned n r w e bad =>
    dispatchReady s n (fun i => s.readFds i && r i) (fun i => s.writeFds i && w i) (fun i => s.errorFds i && e i) bad
  | .eintr => some s
  | .ebadf bad => dispatchReady s (-1) (fun _ => false) (fun _ => false) (fun _ => false) bad
  | .failed => some s

/-- `fdevent_call_fdfunc`. What the callback does are steps of their own. -/
def callFdfunc (s : Loop Id) (x : Id) : Loop Id :=
  let f := s.fdes x
  { s with
    fdes := Function.update s.fdes x f.taken
    delivered := if f.pending then s.delivered ++ [⟨x, f.events, f.wanted, f.faked⟩] else s.delivered }

/-- One round of the inner loop of `fdevent_loop`. -/
def dispatch (s : Loop Id) : Loop Id :=
  match s.listPending with
  | [] => s
  | x :: rest => callFdfunc { s with listPending := rest } x

/-- `fdevent_subproc_event_func`, once it has read the descriptor of the subprocess; `rcount` bytes
    are left to read there. -/
def subproc (s : Loop Id) (fd : Int) (rcount : Nat) : Loop Id :=
  match s.fdTable fd with
  | none => s
  | some x =>
    let f := s.fdes x
    if f.fd ≠ fd then s
    else
      let eof := { f with forceEof := true }
      let s' := { s with fdes := Function.update s.fdes x eof }
      if rcount ≠ 0 then s'
      else
        let s'' := { s with fdes := Function.update s.fdes x (eof.signal fdeRead true) }
        if f.pending then s'' else callFdfunc s'' x

inductive Op (Id : Type)
  | install (x : Id) (fd : Int)
  | set (x : Id) (events : Events)
  | add (x : Id) (events : Events)
  | del (x : Id) (events : Events)
  | remove (x : Id)
  | process (answer : Selected)
  | dispatch
  | subproc (fd : Int) (rcount : Nat)

/-- One step; none when the program aborts. -/
def step (s : Loop Id) : Op Id → Option (Loop Id)
  | .install x fd => install s x fd
  | .set x events => some (set s x events)
  | .add x events => some (add s x events)
  | .del x events => some (del s x events)
  | .remove x => remove s x
  | .process answer => process s answer
  | .dispatch => some (dispatch s)
  | .subproc fd rcount => some (subproc s fd rcount)

def start : Loop Id where
  fdes _ := .blank
  fdTable _ := none
  readFds _ := false
  writeFds _ := false
  errorFds _ := false
  selectN := 0
  listPending := []
  delivered := []

/-! ## What is delivered is wanted -/

/-- Every event is wanted, but for a read that was made up. -/
def Wanted (events wanted : Events) (faked : Bool) : Prop :=
  ∀ k, events.getLsbD k → wanted.getLsbD k ∨ (k = 0 ∧ faked)

/-- A pending event that is wanted before and after `fdevent_set` is still pending after it. -/
def Kept (s t : Loop Id) (x : Id) : Prop :=
  (s.fdes x).pending → ∀ k, (s.fdes x).events.getLsbD k → (s.fdes x).wanted.getLsbD k → (t.fdes x).wanted.getLsbD k →
    (t.fdes x).pending ∧ (t.fdes x).events.getLsbD k

/-- The same for a step of any kind. -/
def KeepsWanted (s : Loop Id) : Op Id → Prop
  | .set x events => Kept s (set s x events) x
  | .add x events => Kept s (add s x events) x
  | .del x events => Kept s (del s x events) x
  | _ => True

/-- What is wanted changes only while nothing is pending. -/
def Settled (s : Loop Id) (x : Id) (events : Events) : Prop := (s.fdes x).pending → (s.fdes x).wanted = events

/-- The steps that the fault of `fdevent_set` does not touch; an object is installed when it is not in
    use, for a descriptor that is not in use. -/
def Quiet (s : Loop Id) : Op Id → Prop
  | .install x fd => s.fdTable fd = none ∧ (s.fdes x).active = false ∧ (s.fdes x).pending = false
  | .set x events => Settled s x events
  | .add x events => Settled s x ((s.fdes x).wanted ||| events)
  | .del x events => Settled s x ((s.fdes x).wanted &&& ~~~ events)
  | _ => True

instance (s : Loop Id) (x : Id) (events : Events) : Decidable (Settled s x events) := inferInstanceAs (Decidable (_ → _))
instance (s : Loop Id) : ∀ op, Decidable (Quiet s op)
  | .install _ _ => inferInstanceAs (Decidable (_ ∧ _))
  | .set _ _ => inferInstanceAs (Decidable (Settled _ _ _))
  | .add _ _ => inferInstanceAs (Decidable (Settled _ _ _))
  | .del _ _ => inferInstanceAs (Decidable (Settled _ _ _))
  | .remove _ => .isTrue trivial
  | .process _ => .isTrue trivial
  | .dispatch => .isTrue trivial
  | .subproc _ _ => .isTrue trivial

/-! ### The bits -/

@[simp] theorem has_read : ∀ mask : Events, has mask fdeRead = mask.getLsbD 0 := by decide
@[simp] theorem has_write : ∀ mask : Events, has mask fdeWrite = mask.getLsbD 1 := by decide
@[simp] theorem has_error : ∀ mask : Events, has mask fdeError = mask.getLsbD 2 := by decide
private theorem fdeRead_bit {k : Nat} (bit : fdeRead.getLsbD k) : k = 0 := by
  have small : k < 8 := BitVec.lt_of_getLsbD bit
  revert bit
  interval_cases k <;> decide

variable {ready : Ready}

private theorem ready_bit {i : Int} {k : Nat} (bit : (ready.events i).getLsbD k) :
    (k = 0 ∧ ready.r i) ∨ (k = 1 ∧ ready.w i) ∨ (k = 2 ∧ ready.e i) := by
  have small : k < 8 := BitVec.lt_of_getLsbD bit
  unfold Ready.events at bit
  revert bit
  cases ready.r i <;> cases ready.w i <;> cases ready.e i <;> interval_cases k <;> decide

theorem wanted_none (wanted : Events) (faked : Bool) : Wanted 0 wanted faked := by
  intro k bit
  simp at bit

variable {f : Fde} {t : Loop Id} {events : Events} {made : Bool} {s : Loop Id} {x : Id}

theorem wanted_signal (old : Wanted f.events f.wanted f.faked)
    (new : Wanted events f.wanted made) : Wanted (f.signal events made).events f.wanted (f.signal events made).faked := by
  intro k bit
  simp only [Fde.signal,BitVec.getLsbD_or,Bool.or_eq_true] at bit ⊢
  by_cases before : f.events.getLsbD k
  · rcases old k before with yes | ⟨read,faked⟩
    · exact .inl yes
    · exact .inr ⟨read,by simp [faked]⟩
  · rcases new k (bit.resolve_left before) with yes | ⟨rfl,made⟩
    · exact .inl yes
    · rw [made,has_read,Bool.eq_false_iff.mpr before]
      simp

/-! ### The invariant -/

/-- The set of `select` for an event. -/
def watched (s : Loop Id) : Nat → Int → Bool
  | 0 => s.readFds
  | 1 => s.writeFds
  | 2 => s.errorFds
  | _ => fun _ => false

/-- The table and the objects agree, `select` watches only what is wanted, and so is all that is
    pending or was delivered. -/
structure Sound (s : Loop Id) : Prop where
  registered : ∀ {i x}, s.fdTable i = some x ↔ (s.fdes x).active ∧ (s.fdes x).fd = i
  watches : ∀ {k i}, watched s k i → ∃ x, s.fdTable i = some x ∧ (s.fdes x).wanted.getLsbD k
  idle : ∀ {x}, (s.fdes x).pending = false ↔ (s.fdes x).events = 0
  wanted : ∀ x, Wanted (s.fdes x).events (s.fdes x).wanted (s.fdes x).faked
  delivered : ∀ d ∈ s.delivered, Wanted d.events d.wanted d.faked

omit [DecidableEq Id] in
private theorem start_sound : Sound (start : Loop Id) where
  registered := by simp [start,Fde.blank]
  watches {k i} set := by
    unfold watched at set
    split at set <;> cases set
  idle := by simp [start,Fde.blank]
  wanted _ := wanted_none _ _
  delivered _ member := by cases member

/-- A step that changes one object: what has to be said about it. -/
theorem sound_change (sound : Sound s) (changed : t.fdes = Function.update s.fdes x f)
    (table : ∀ i y, y ≠ x → (t.fdTable i = some y ↔ s.fdTable i = some y))
    (own : ∀ i, t.fdTable i = some x ↔ f.active ∧ f.fd = i)
    (sets : ∀ k i, watched t k i → (watched s k i ∧ s.fdTable i ≠ some x) ∨ (t.fdTable i = some x ∧ f.wanted.getLsbD k))
    (idle : f.pending = false ↔ f.events = 0) (wanted : Wanted f.events f.wanted f.faked)
    (logged : ∀ d ∈ t.delivered, Wanted d.events d.wanted d.faked) : Sound t := by
  have self : t.fdes x = f := by rw [changed,Function.update_self]
  have others (y : Id) (object : y ≠ x) : t.fdes y = s.fdes y := by rw [changed,Function.update_of_ne object]
  have each {P : Id → Fde → Prop} (here : P x f) (there : ∀ y ≠ x, P y (s.fdes y)) (y : Id) : P y (t.fdes y) := by
    by_cases object : y = x
    · rw [object,self]
      exact here
    · rw [others y object]
      exact there y object
  refine ⟨fun {i y} => ?_,fun {k i} set => ?_,fun {y} => ?_,?_,logged⟩
  · exact each (P := fun y f => t.fdTable i = some y ↔ f.active ∧ f.fd = i) (own i)
      (fun y object => (table i y object).trans sound.registered) y
  · rcases sets k i set with ⟨old,free⟩ | here
    · obtain ⟨y,found,wants⟩ := sound.watches old
      have object : y ≠ x := by
        rintro rfl
        exact free found
      exact ⟨y,(table i y object).mpr found,by rw [others y object]; exact wants⟩
    · exact ⟨x,by rwa [self]⟩
  · exact each (P := fun _ f => f.pending = false ↔ f.events = 0) idle (fun _ _ => sound.idle) y
  · exact each (P := fun _ f => Wanted f.events f.wanted f.faked) wanted fun y _ => sound.wanted y

theorem sound_replace (sound : Sound s) {list : List Id} {log : List (Delivery Id)}
    (fd : f.fd = (s.fdes x).fd) (active : f.active = (s.fdes x).active) (wanted : f.wanted = (s.fdes x).wanted)
    (idle : f.pending = false ↔ f.events = 0) (good : Wanted f.events f.wanted f.faked)
    (logged : ∀ d ∈ log, Wanted d.events d.wanted d.faked) :
    Sound { s with fdes := Function.update s.fdes x f, listPending := list, delivered := log } := by
  refine sound_change sound rfl (fun _ _ _ => Iff.rfl) (fun i => ?_) (fun k i set => ?_) idle good logged
  · rw [fd,active]
    exact sound.registered
  by_cases here : s.fdTable i = some x
  · obtain ⟨y,found,wants⟩ := sound.watches (show watched s k i from set)
    obtain rfl := some.inj (found.symm.trans here)
    exact .inr ⟨here,by rwa [wanted]⟩
  · exact .inl ⟨set,here⟩

/-! ### The steps -/

omit [DecidableEq Id] in
theorem absent_of_inactive (sound : Sound s) (inactive : ¬ (s.fdes x).active) (i : Int) :
    s.fdTable i ≠ some x := by
  rw [ne_eq,sound.registered]
  simp [inactive]

private theorem install_sound {fd : Int} (sound : Sound s) (free : s.fdTable fd = none)
    (unused : (s.fdes x).active = false) (done : install s x fd = some t) : Sound t := by
  unfold install at done
  split at done
  · cases done
  obtain rfl := some.inj done
  have absent := absent_of_inactive sound (by rw [unused]; nofun)
  refine sound_change sound rfl (fun i y object => ?_) (fun i => ?_) (fun k i set => .inl ⟨set,absent i⟩)
    (by simp [Fde.installed,Fde.blank]) (wanted_none _ _) sound.delivered
  · by_cases place : i = fd
    · subst place
      simp [free,Ne.symm object]
    · simp only [Function.update_of_ne place]
  · by_cases place : i = fd
    · subst place
      simp [Fde.installed]
    · simp [Function.update_of_ne place,absent,Fde.installed,Ne.symm place]

private theorem remove_sound (sound : Sound s) (done : remove s x = some t) : Sound t := by
  have fresh : (s.fdes x).removed.pending = false ↔ (s.fdes x).removed.events = 0 := by simp [Fde.removed]
  simp only [remove] at done
  split at done
  · rename_i active
    split at done
    · cases done
    obtain rfl := some.inj done
    have here (i : Int) : s.fdTable i = some x ↔ (s.fdes x).fd = i := by
      rw [sound.registered,active]
      simp
    refine sound_change sound rfl (fun i y object => ?_) (fun i => ?_) (fun k i set => .inl ?_) fresh (wanted_none _ _)
      sound.delivered
    · by_cases place : i = (s.fdes x).fd
      · subst place
        simp [(here _).mpr rfl,Ne.symm object]
      · simp only [Function.update_of_ne place]
    · by_cases place : i = (s.fdes x).fd
      · subst place
        simp [Fde.removed]
      · simp [Function.update_of_ne place,here,Fde.removed,Ne.symm place]
    · unfold watched at set ⊢
      split at set <;> grind [Function.update_apply]
  · rename_i inactive
    obtain rfl := some.inj done
    have absent := absent_of_inactive sound inactive
    refine sound_change sound rfl (fun _ _ _ => Iff.rfl) (fun i => ?_) (fun k i set => .inl ⟨set,absent i⟩) fresh
      (wanted_none _ _) sound.delivered
    simp [absent,Fde.removed]

theorem settled_set (settled : f.pending → f.wanted = events)
    (idle : f.pending = false ↔ f.events = 0) (wanted : Wanted f.events f.wanted f.faked) :
    ((f.set events).pending = false ↔ (f.set events).events = 0) ∧
      Wanted (f.set events).events (f.set events).wanted (f.set events).faked := by
  unfold Fde.set
  split
  · exact ⟨idle,wanted⟩
  rename_i changed
  have quiet : f.pending = false := Bool.eq_false_iff.mpr fun pending => changed (settled pending)
  simp only [quiet,Bool.false_eq_true,if_false]
  refine ⟨by simp [idle.mp quiet],?_⟩
  rw [idle.mp quiet]
  exact wanted_none _ _

@[simp] theorem set_fd (f : Fde) (events : Events) : (f.set events).fd = f.fd := by
  unfold Fde.set
  split
  · rfl
  split <;> rfl
@[simp] theorem set_active (f : Fde) (events : Events) : (f.set events).active = f.active := by
  unfold Fde.set
  split
  · rfl
  split <;> rfl
@[simp] theorem set_wanted (f : Fde) (events : Events) : (f.set events).wanted = events := by
  unfold Fde.set
  split
  · assumption
  split <;> rfl

@[simp] theorem add_wanted (f : Fde) (events : Events) : (f.add events).wanted = f.wanted ||| events := set_wanted _ _
@[simp] theorem del_wanted (f : Fde) (events : Events) : (f.del events).wanted = f.wanted &&& ~~~ events := set_wanted _ _
theorem set_events {k : Nat} (bit : (f.set events).events.getLsbD k) : f.events.getLsbD k := by
  unfold Fde.set at bit
  split at bit
  · exact bit
  split at bit
  · simp only [BitVec.getLsbD_and,Bool.and_eq_true] at bit
    exact bit.1
  · exact bit

theorem set_idle (events : Events) (idle : f.pending = false) :
    (f.set events).pending = false ∧ (f.set events).events = f.events := by
  unfold Fde.set
  split
  · exact ⟨idle,rfl⟩
  · rw [if_neg (by simp [idle])]
    exact ⟨idle,rfl⟩

private theorem set_faked (real : f.faked = false) : (f.set events).faked = false := by
  unfold Fde.set
  split
  · exact real
  split
  · simp [real]
  · exact real
@[simp] theorem set_object (s : Loop Id) (x : Id) (events : Events) : (set s x events).fdes x = (s.fdes x).set events := by
  unfold set
  simp only
  split
  · rename_i same
    exact (if_pos same).symm
  · simp

theorem set_sound (sound : Sound s) (settled : Settled s x events) :
    Sound (set s x events) := by
  obtain ⟨idle,wanted⟩ := settled_set settled sound.idle (sound.wanted x)
  simp only [set]
  split
  · exact sound
  refine sound_change sound (by split <;> rfl) (fun i y _ => by split <;> rfl) (fun i => ?_) (fun k i set => ?_) idle wanted
    (by split <;> exact sound.delivered)
  · split <;> simpa [update] using sound.registered
  by_cases here : s.fdTable i = some x
  · obtain ⟨active,place⟩ := sound.registered.mp here
    refine .inr ⟨by split <;> exact here,?_⟩
    subst place
    unfold watched at set
    split at set <;> simp_all [update]
  · refine .inl ⟨?_,here⟩
    split at set
    · rename_i active
      have place : (s.fdes x).fd ≠ i := fun same => here (sound.registered.mpr ⟨active,same⟩)
      unfold watched at set ⊢
      split at set <;> simp_all [update,Function.update_of_ne place.symm]
    · exact set

theorem signal_busy (some : events ≠ 0) :
    (f.signal events made).pending = false ↔ (f.signal events made).events = 0 := by
  refine iff_of_false (by simp [Fde.signal]) ?_
  intro none
  exact some (BitVec.or_eq_zero_iff.mp none).2

private theorem signal_sound (sound : Sound s) (some : events ≠ 0)
    (new : Wanted events (s.fdes x).wanted made) : Sound (signal s x events made) := by
  exact sound_replace sound rfl rfl rfl (signal_busy some) (wanted_signal (sound.wanted x) new) sound.delivered

/-- What the loop over the descriptors relies on: a ready bit is watched or made up. -/
def ReadyFor (s : Loop Id) (ready : Ready) : Prop :=
  ∀ i, (ready.r i → s.readFds i ∨ ready.made i) ∧ (ready.w i → s.writeFds i) ∧ (ready.e i → s.errorFds i)

omit [DecidableEq Id] in
private theorem ready_wanted {i : Int} (sound : Sound s) (readyFor : ReadyFor s ready)
    (found : s.fdTable i = some x) : Wanted (ready.events i) (s.fdes x).wanted (ready.made i) := by
  have owner {k : Nat} (set : watched s k i) : (s.fdes x).wanted.getLsbD k := by
    obtain ⟨y,other,wants⟩ := sound.watches set
    obtain rfl := some.inj (other.symm.trans found)
    exact wants
  obtain ⟨reads,writes,errors⟩ := readyFor i
  intro k bit
  rcases ready_bit bit with ⟨rfl,r⟩ | ⟨rfl,w⟩ | ⟨rfl,e⟩
  · rcases reads r with set | made
    · exact .inl (owner set)
    · exact .inr ⟨rfl,made⟩
  · exact .inl (owner (writes w))
  · exact .inl (owner (errors e))

theorem visit_sound {p q : Int × Loop Id} {i : Nat} (sound : Sound p.2) (readyFor : ReadyFor p.2 ready)
    (done : visit ready p i = some q) : Sound q.2 ∧ ReadyFor q.2 ready := by
  unfold visit at done
  split at done
  · rename_i more
    split at done
    · cases done
    · rename_i x found
      obtain rfl := some.inj done
      exact ⟨signal_sound sound more.2 (ready_wanted sound readyFor found),readyFor⟩
  · obtain rfl := some.inj done
    exact ⟨sound,readyFor⟩

theorem visits_sound {range : List Nat} {p q : Int × Loop Id} (sound : Sound p.2)
    (readyFor : ReadyFor p.2 ready) (done : range.foldlM (visit ready) p = some q) : Sound q.2 := by
  induction range generalizing p with
  | nil =>
    obtain rfl := some.inj done
    exact sound
  | cons i range ih =>
    obtain ⟨next,first,rest⟩ := bind_eq_some_iff.mp done
    obtain ⟨sound,readyFor⟩ := visit_sound sound readyFor first
    exact ih sound readyFor rest

theorem dispatchReady_sound {n : Int} {r w e bad : Int → Bool} (sound : Sound s)
    (subset : ∀ i, (r i → s.readFds i) ∧ (w i → s.writeFds i) ∧ (e i → s.errorFds i))
    (done : dispatchReady s n r w e bad = some t) : Sound t := by
  obtain ⟨q,loop,rfl⟩ := map_eq_some_iff.mp done
  refine visits_sound (p := (_,s)) sound ?_ loop
  intro i
  obtain ⟨reads,writes,errors⟩ := subset i
  split
  · refine ⟨?_,writes,errors⟩
    intro found
    by_cases real : r i
    · exact .inl (reads real)
    · simp_all
  · exact ⟨fun found => .inl (reads found),writes,errors⟩

theorem process_sound {answer : Selected} (sound : Sound s) (done : process s answer = some t) :
    Sound t := by
  cases answer with
  | returned n r w e bad =>
    apply dispatchReady_sound sound _ done
    intro i
    simp only [Bool.and_eq_true]
    exact ⟨And.left,And.left,And.left⟩
  | eintr =>
    obtain rfl := some.inj done
    exact sound
  | ebadf bad =>
    apply dispatchReady_sound sound _ done
    simp
  | failed =>
    obtain rfl := some.inj done
    exact sound

theorem callFdfunc_sound (sound : Sound s) : Sound (callFdfunc s x) := by
  refine sound_replace sound rfl rfl rfl (by simp [Fde.taken]) (wanted_none _ _) ?_
  · intro d member
    split at member
    · rcases List.mem_append.mp member with old | new
      · exact sound.delivered d old
      · obtain rfl := List.mem_singleton.mp new
        exact sound.wanted x
    · exact sound.delivered d member

theorem dispatch_sound (sound : Sound s) : Sound (dispatch s) := by
  unfold dispatch
  split
  · exact sound
  · rename_i x rest _
    have same : Sound { s with listPending := rest } :=
      ⟨sound.registered,sound.watches,sound.idle,sound.wanted,sound.delivered⟩
    exact callFdfunc_sound same

theorem subproc_sound {fd : Int} {rcount : Nat} (sound : Sound s) : Sound (subproc s fd rcount) := by
  simp only [subproc]
  split
  · exact sound
  rename_i x _
  split
  · exact sound
  split
  · exact sound_replace sound rfl rfl rfl sound.idle (sound.wanted x) sound.delivered
  have marked : Sound { s with fdes := Function.update s.fdes x (Fde.signal { s.fdes x with forceEof := true } fdeRead true) } := by
    refine sound_replace sound rfl rfl rfl (signal_busy (by decide)) ?_ sound.delivered
    exact wanted_signal (f := { s.fdes x with forceEof := true }) (sound.wanted x) fun k bit =>
      .inr ⟨fdeRead_bit bit,rfl⟩
  split
  · exact marked
  · exact callFdfunc_sound marked

theorem step_sound {op : Op Id} (sound : Sound s) (quiet : Quiet s op) (done : step s op = some t) : Sound t := by
  cases op with
  | install x fd => exact install_sound sound quiet.1 quiet.2.1 done
  | set x events =>
    obtain rfl := some.inj done
    exact set_sound sound quiet
  | add x events =>
    obtain rfl := some.inj done
    exact set_sound sound quiet
  | del x events =>
    obtain rfl := some.inj done
    exact set_sound sound quiet
  | remove x => exact remove_sound sound done
  | process answer => exact process_sound sound done
  | dispatch =>
    obtain rfl := some.inj done
    exact dispatch_sound sound
  | subproc fd rcount =>
    obtain rfl := some.inj done
    exact subproc_sound sound

theorem settled_kept (settled : Settled s x events) : Kept s (set s x events) x := by
  intro pending k bit _ _
  have same : set s x events = s := if_pos (settled pending)
  rw [same]
  exact ⟨pending,bit⟩

theorem quiet_keeps {op : Op Id} (quiet : Quiet s op) : KeepsWanted s op := by
  cases op with
  | set x events => exact settled_kept quiet
  | add x events => exact settled_kept quiet
  | del x events => exact settled_kept quiet
  | _ => trivial

/-- A change of what is wanted, while a real event is pending, loses an event that stays wanted or
    leaves one pending that is no longer wanted. -/
theorem settled_iff (sound : Sound s) (real : (s.fdes x).faked = false) :
    (Kept s (set s x events) x ∧ Wanted ((set s x events).fdes x).events events false) ↔ Settled s x events := by
  constructor
  · rintro ⟨kept,wanted⟩ pending
    by_contra changed
    have left : ((s.fdes x).set events).events = (s.fdes x).events &&& ~~~ events := by
      simp only [Fde.set,if_neg changed,pending,if_true]
    have busy : (s.fdes x).events ≠ 0 := by
      rw [ne_eq,← sound.idle,pending]
      simp
    obtain ⟨k,bit⟩ : ∃ k, (s.fdes x).events.getLsbD k := by
      by_contra none
      apply busy
      apply BitVec.eq_of_getLsbD_eq
      intro k _
      simpa using fun bit => none ⟨k,bit⟩
    have small : k < 8 := BitVec.lt_of_getLsbD bit
    have before : (s.fdes x).wanted.getLsbD k := by
      rcases sound.wanted x k bit with yes | ⟨_,faked⟩
      · exact yes
      · rw [real] at faked
        cases faked
    rw [set_object,left] at wanted
    by_cases stays : events.getLsbD k
    · have still := (kept pending k bit before (by rw [set_object,set_wanted]; exact stays)).2
      rw [set_object,left] at still
      simp only [BitVec.getLsbD_and,BitVec.getLsbD_not,stays] at still
      simp at still
    · rcases wanted k (by simp only [BitVec.getLsbD_and,BitVec.getLsbD_not,bit,stays,small]; rfl) with yes | ⟨_,faked⟩
      · exact stays yes
      · cases faked
  · intro settled
    refine ⟨settled_kept settled,?_⟩
    have wanted := (settled_set settled sound.idle (sound.wanted x)).2
    rw [set_wanted,set_faked real] at wanted
    rw [set_object]
    exact wanted

/-- In every run whose changes of the wanted events meet no pending event, what is delivered is wanted
    then, and what stays wanted stays pending. The condition is exact for the next change, unless a read
    is made up. -/
theorem delivers_wanted {ops : List (Op Id)} {s : Loop Id} (quiet : Meets step Quiet start ops)
    (runs : run step start ops = some s) :
    ((∀ d ∈ s.delivered, Wanted d.events d.wanted d.faked) ∧ Meets step KeepsWanted start ops) ∧
      ∀ x events, (s.fdes x).faked = false →
        ((Kept s (set s x events) x ∧ Wanted ((set s x events).fdes x).events events false) ↔ Settled s x events) := by
  have sound := run_keeps step_sound start_sound quiet runs
  exact ⟨⟨sound.delivered, meets_mono (fun _ _ => quiet_keeps) quiet⟩, fun _ _ real => settled_iff sound real⟩

end Steps

/-- Two descriptors are watched for input, and `select` finds both of them ready. -/
def bothReady : List (Op Bool) :=
  [.install false 3, .set false fdeRead, .install true 4, .set true fdeRead,
    .process (.returned 2 (fun _ => true) (fun _ => false) (fun _ => false) fun _ => false)]

/-- The read that the second one does not want any more after the first one's callback is not
    delivered if the change is made after its own callback. -/
theorem bothReady_wanted : ∃ s, run step start (bothReady ++ [.dispatch, .dispatch, .del true fdeRead]) = some s ∧
    s.delivered = [⟨false, fdeRead, fdeRead, false⟩, ⟨true, fdeRead, fdeRead, false⟩] ∧
    ∀ d ∈ s.delivered, Wanted d.events d.wanted d.faked := by
  have quiet : Meets step Quiet start (bothReady ++ [.dispatch, .dispatch, .del true fdeRead]) := by decide
  obtain ⟨s, runs, log⟩ : ∃ s, run step start (bothReady ++ [.dispatch, .dispatch, .del true fdeRead]) = some s ∧
      s.delivered = [⟨false, fdeRead, fdeRead, false⟩, ⟨true, fdeRead, fdeRead, false⟩] := ⟨_, rfl, by decide⟩
  exact ⟨s, runs, log, (delivers_wanted quiet runs).1.1⟩

theorem bothReady_unwanted : ∃ s, run step start (bothReady ++ [.dispatch, .del true fdeRead, .dispatch]) = some s ∧
    ∃ d ∈ s.delivered, ¬ Wanted d.events d.wanted d.faked := by
  refine ⟨_, rfl, ⟨true, fdeRead, 0, false⟩, by decide, ?_⟩
  intro wanted
  have read := wanted 0 (by decide)
  revert read
  decide

end Recovery.Fdevent
