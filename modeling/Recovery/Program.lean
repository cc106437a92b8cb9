import Mathlib.Tactic.Common
import Mathlib.Logic.Relation
import Mathlib.Order.Defs.Unbundled

/-!
Programs that ask an environment and may be cut off. A program runs on a state and a list of
answers, one for each question it asks; when the answers run out the run stops where it stands, so
the lists of all lengths are the runs cut off at every point. A triple says what holds when a run
returns and what holds wherever it stops; `Can` says that some answers make a program return.
-/
namespace Recovery.Program

variable {σ A α β : Type}

/-- What a run leaves: the value returned, or none when it stopped before
    returning, the state, and the answers it did not use. -/
structure Outcome (σ A α : Type) where
  value : Option α
  state : σ
  rest : List A
  deriving DecidableEq, Repr

/-- A program over states `σ` and answers `A`. -/
def Prog (σ A α : Type) : Type := σ → List A → Outcome σ A α

namespace Prog

/-- The second program goes on from where the first one returned. -/
def next (o : Outcome σ A α) (k : α → Prog σ A β) : Outcome σ A β :=
  match o.value with
  | some a => k a o.state o.rest
  | none => ⟨none, o.state, o.rest⟩

instance : Monad (Prog σ A) where
  pure a := fun s as => ⟨some a, s, as⟩
  bind p k := fun s as => next (p s as) k

def get : Prog σ A σ := fun s as => ⟨some s, s, as⟩
def modify (f : σ → σ) : Prog σ A Unit := fun s as => ⟨some (), f s, as⟩
/-- The next answer; the run stops here when there is none. -/
def ask : Prog σ A A := fun s as =>
  match as with
  | [] => ⟨none, s, []⟩
  | a :: rest => ⟨some a, s, rest⟩
/-- A run that never returns. -/
def stuck : Prog σ A α := fun s as => ⟨none, s, as⟩
/-- At most `fuel` rounds of a step, until it returns a result. -/
def rounds (step : β → Prog σ A (β ⊕ α)) : Nat → β → Prog σ A α
  | 0, _ => stuck
  | fuel + 1, b => do
    match ← step b with
    | .inl b => rounds step fuel b
    | .inr a => pure a
/-- Rounds of a step until it returns a result. A round uses up an answer, so
    there are never more rounds than answers. -/
def iterate (step : β → Prog σ A (β ⊕ α)) (b : β) : Prog σ A α := fun s as => rounds step (as.length + 1) b s as
/-- A value that may be missing; the run gets stuck without it. -/
def need : Option α → Prog σ A α
  | some a => pure a
  | none => stuck

theorem pure_run (a : α) (s : σ) (as : List A) : (pure a : Prog σ A α) s as = ⟨some a,s,as⟩ := rfl
theorem bind_run (p : Prog σ A α) (k : α → Prog σ A β) (s : σ) (as : List A) :
    (p >>= k) s as = next (p s as) k := rfl
theorem get_run (s : σ) (as : List A) : (get : Prog σ A σ) s as = ⟨some s,s,as⟩ := rfl
theorem modify_run (f : σ → σ) (s : σ) (as : List A) : (modify f : Prog σ A Unit) s as = ⟨some (),f s,as⟩ := rfl
theorem ask_run (a : A) (s : σ) (as : List A) : (ask : Prog σ A A) s (a :: as) = ⟨some a,s,as⟩ := rfl
theorem stuck_run (s : σ) (as : List A) : (stuck : Prog σ A α) s as = ⟨none,s,as⟩ := rfl

theorem next_some {o : Outcome σ A α} {a : α} (returned : o.value = some a) (k : α → Prog σ A β) :
    next o k = k a o.state o.rest := by
  simp [next,returned]
theorem next_none {o : Outcome σ A α} (stopped : o.value = none) (k : α → Prog σ A β) :
    next o k = ⟨none,o.state,o.rest⟩ := by
  simp [next,stopped]

theorem bind_pure_state (p : Prog σ A α) (f : α → β) (s : σ) (as : List A) :
    ((p >>= fun a => pure (f a)) s as).state = (p s as).state := by
  rw [bind_run]
  rcases p s as with ⟨_ | a,t,bs⟩ <;> rfl

theorem map_id_run (p : Prog σ A α) : id <$> p = p := by
  funext s as
  change next (p s as) (fun a s as => ⟨some (id a),s,as⟩) = p s as
  rcases p s as with ⟨_ | a,t,bs⟩ <;> rfl
theorem bind_bind_run {γ : Type} (p : Prog σ A α) (k : α → Prog σ A β) (l : β → Prog σ A γ) :
    p >>= k >>= l = p >>= fun a => k a >>= l := by
  funext s as
  simp only [bind_run]
  rcases p s as with ⟨_ | a,t,bs⟩ <;> rfl

instance : LawfulMonad (Prog σ A) :=
  LawfulMonad.mk' _ map_id_run (fun _ _ => rfl) bind_bind_run

theorem ite_bind {c : Prop} [Decidable c] (p q : Prog σ A α) (k : α → Prog σ A β) :
    (if c then p else q) >>= k = if c then p >>= k else q >>= k := by
  split <;> rfl

theorem bind_returns {p : Prog σ A α} {k : α → Prog σ A β} {s : σ} {as : List A} {b : β}
    (returned : ((p >>= k) s as).value = some b) :
    ∃ a, (p s as).value = some a ∧ (p >>= k) s as = k a (p s as).state (p s as).rest := by
  cases first : (p s as).value with
  | none => simp [bind_run,next_none first] at returned
  | some a => exact ⟨a,rfl,by rw [bind_run,next_some first]⟩

end Prog
open Prog List

/-- Every run from a state with `P` returns with `Q` or stops with `C`. -/
def Triple (P : σ → Prop) (p : Prog σ A α) (Q : α → σ → Prop) (C : σ → Prop) : Prop :=
  ∀ s as, P s → (∀ a, (p s as).value = some a → Q a (p s as).state) ∧
    ((p s as).value = none → C (p s as).state)

section Rules
variable {P B : σ → Prop} {C D : σ → Prop} {p : Prog σ A α} {k : α → Prog σ A β}
variable {Q E : α → σ → Prop} {R : β → σ → Prop}

theorem triple_pure (a : α) (post : ∀ s, P s → Q a s) : Triple P (pure a : Prog σ A α) Q C := by
  intro s as holds
  refine ⟨?_,by simp [pure_run]⟩
  intro b equal
  obtain rfl : a = b := by simpa [pure_run] using equal
  exact post s holds
theorem triple_bind (first : Triple P p Q C) (second : ∀ a, Triple (Q a) (k a) R C) :
    Triple P (p >>= k) R C := by
  intro s as holds
  obtain ⟨returns,stops⟩ := first s as holds
  cases value : (p s as).value with
  | none => simpa [bind_run,next_none value] using stops value
  | some a => simpa [bind_run,next_some value] using second a _ (p s as).rest (returns a value)
theorem triple_conseq (body : Triple B p E D) (pre : ∀ s, P s → B s) (post : ∀ a s, E a s → Q a s)
    (crash : ∀ s, D s → C s) : Triple P p Q C := by
  intro s as holds
  obtain ⟨returns,stops⟩ := body s as (pre s holds)
  exact ⟨fun a value => post a _ (returns a value),fun value => crash _ (stops value)⟩
theorem triple_and (first : Triple P p Q C) (second : Triple P p E D) :
    Triple P p (fun a s => Q a s ∧ E a s) fun s => C s ∧ D s :=
  fun s as holds => ⟨fun a value => ⟨(first s as holds).1 a value,(second s as holds).1 a value⟩,
    fun value => ⟨(first s as holds).2 value,(second s as holds).2 value⟩⟩
theorem triple_pre (body : Triple B p Q C) (pre : ∀ s, P s → B s) : Triple P p Q C :=
  triple_conseq body pre (fun _ _ h => h) (fun _ h => h)
theorem triple_state {I : σ → Prop} (body : Triple P p (fun _ => I) I) {s : σ} (holds : P s) (as : List A) :
    I (p s as).state := by
  cases value : (p s as).value with
  | none => exact (body s as holds).2 value
  | some a => exact (body s as holds).1 a value
theorem triple_get {Q : σ → σ → Prop} (post : ∀ s, P s → Q s s) : Triple P (get : Prog σ A σ) Q C := by
  intro s as holds
  refine ⟨?_,by simp [get_run]⟩
  intro b equal
  obtain rfl : s = b := by simpa [get_run] using equal
  exact post s holds
theorem triple_modify {f : σ → σ} {Q : Unit → σ → Prop} (post : ∀ s, P s → Q () (f s)) :
    Triple P (modify f : Prog σ A Unit) Q C := by
  intro s as holds
  exact ⟨fun _ _ => post s holds,by simp [modify_run]⟩
theorem triple_ask {Q : A → σ → Prop} (post : ∀ a s, P s → Q a s) (crash : ∀ s, P s → C s) :
    Triple P (ask : Prog σ A A) Q C := by
  intro s as holds
  cases as with
  | nil => exact ⟨by simp [ask],fun _ => crash s holds⟩
  | cons a rest =>
    refine ⟨?_,by simp [ask]⟩
    intro b equal
    exact post b s holds
theorem triple_ask_bind {k : A → Prog σ A β} (crash : ∀ s, P s → C s) (rest : ∀ a, Triple P (k a) R C) :
    Triple P (ask >>= k) R C := triple_bind (triple_ask (fun _ _ holds => holds) crash) rest
theorem triple_stuck (crash : ∀ s, P s → C s) : Triple P (stuck : Prog σ A α) Q C := by
  intro s as holds
  exact ⟨by simp [stuck_run],fun _ => crash s holds⟩
theorem triple_ite {c : Prop} [Decidable c] {p q : Prog σ A α} (yes : c → Triple P p Q C)
    (no : ¬ c → Triple P q Q C) : Triple P (if c then p else q) Q C := by
  by_cases h : c
  · simpa [h] using yes h
  · simpa [h] using no h
theorem triple_iterate {step : β → Prog σ A (β ⊕ α)} {I : β → σ → Prop}
    (round : ∀ b, Triple (I b) (step b) (fun r s => r.elim (I · s) (Q · s)) C) (crash : ∀ b s, I b s → C s) (b : β) :
    Triple (I b) (iterate step b) Q C := by
  have bounded (fuel : Nat) : ∀ b, Triple (I b) (rounds step fuel b) Q C := by
    induction fuel with
    | zero => exact fun b => triple_stuck (crash b)
    | succ fuel ih =>
      refine fun b => triple_bind (round b) fun r => ?_
      cases r with
      | inl b => exact ih b
      | inr a => exact triple_pure a fun _ holds => holds
  exact fun s as => bounded _ b s as
theorem triple_assume (body : ∀ s, P s → Triple (fun t => t = s) p Q C) : Triple P p Q C :=
  fun s as holds => body s holds s as rfl

end Rules

/-- Every run, wherever it ends, leaves a state related to its first one. -/
def Keeps (R : σ → σ → Prop) (p : Prog σ A α) : Prop := ∀ s as, R s (p s as).state

section Frames
variable {R : σ → σ → Prop} {p : Prog σ A α} {k : α → Prog σ A β}

theorem keeps_modify {f : σ → σ} (step : ∀ s, R s (f s)) : Keeps R (modify f : Prog σ A Unit) := fun s _ => step s
theorem keeps_ite {c : Prop} [Decidable c] {p q : Prog σ A α} (yes : c → Keeps R p) (no : ¬ c → Keeps R q) :
    Keeps R (if c then p else q) := by
  by_cases h : c
  · simpa [h] using yes h
  · simpa [h] using no h
theorem triple_keeps {P : σ → Prop} (kept : Keeps R p) (carries : ∀ s t, R s t → P s → P t) :
    Triple P p (fun _ => P) P :=
  fun s as holds => ⟨fun _ _ => carries _ _ (kept s as) holds,fun _ => carries _ _ (kept s as) holds⟩
theorem triple_from (kept : Keeps R p) (s : σ) : Triple (fun t => t = s) p (fun _ => R s) fun _ => True := by
  rintro _ as rfl
  exact ⟨fun _ _ => kept _ as,fun _ => trivial⟩
theorem triple_value {P C : σ → Prop} {Q S : α → σ → Prop} (body : Triple P p Q C)
    (fact : ∀ s as a, P s → (p s as).value = some a → S a (p s as).state) : Triple P p (fun a s => Q a s ∧ S a s) C :=
  fun s as holds => ⟨fun a value => ⟨(body s as holds).1 a value,fact s as a holds value⟩,(body s as holds).2⟩

variable [IsPreorder σ R]

theorem keeps_pure (a : α) : Keeps R (pure a : Prog σ A α) := fun s _ => refl s
theorem keeps_bind (first : Keeps R p) (second : ∀ a, Keeps R (k a)) : Keeps R (p >>= k) := by
  intro s as
  cases value : (p s as).value with
  | none => simpa [bind_run,next_none value] using first s as
  | some a => simpa [bind_run,next_some value] using IsTrans.trans _ _ _ (first s as) (second a _ (p s as).rest)
theorem keeps_get : Keeps R (get : Prog σ A σ) := fun s _ => refl s
theorem keeps_ask : Keeps R (ask : Prog σ A A) := by
  intro s as
  cases as <;> exact refl s
theorem keeps_stuck : Keeps R (stuck : Prog σ A α) := fun s _ => refl s
theorem keeps_iterate {step : β → Prog σ A (β ⊕ α)} (round : ∀ b, Keeps R (step b)) (b : β) :
    Keeps R (iterate step b) := by
  have bounded (fuel : Nat) : ∀ b, Keeps R (rounds step fuel b) := by
    induction fuel with
    | zero => exact fun b => keeps_stuck
    | succ fuel ih =>
      refine fun b => keeps_bind (round b) fun r => ?_
      cases r with
      | inl b => exact ih b
      | inr a => exact keeps_pure a
  exact fun s as => bounded _ b s as

end Frames

/-- From every state with `P` there are answers with which the program returns with `Q`,
    whatever answers are left. -/
def Can (P : σ → Prop) (p : Prog σ A α) (Q : α → σ → Prop) : Prop :=
  ∀ s, P s → ∃ as a t, Q a t ∧ ∀ rest, p s (as ++ rest) = ⟨some a, t, rest⟩

section Possible
variable {P : σ → Prop} {p : Prog σ A α} {k : α → Prog σ A β} {Q : α → σ → Prop} {R : β → σ → Prop}

theorem can_pure (a : α) (post : ∀ s, P s → Q a s) : Can P (pure a : Prog σ A α) Q :=
  fun s holds => ⟨[],a,s,post s holds,fun _ => rfl⟩
theorem can_bind (first : Can P p Q) (second : ∀ a, Can (Q a) (k a) R) : Can P (p >>= k) R := by
  intro s holds
  obtain ⟨as,a,t,mid,run⟩ := first s holds
  obtain ⟨bs,b,u,post,run'⟩ := second a t mid
  refine ⟨as ++ bs,b,u,post,fun rest => ?_⟩
  rw [bind_run,append_assoc,run,next_some rfl]
  exact run' rest
theorem can_pre {B : σ → Prop} (body : Can B p Q) (pre : ∀ s, P s → B s) : Can P p Q :=
  fun s holds => body s (pre s holds)
theorem can_get {Q : σ → σ → Prop} (post : ∀ s, P s → Q s s) : Can P (get : Prog σ A σ) Q :=
  fun s holds => ⟨[],s,s,post s holds,fun _ => rfl⟩
theorem can_modify {f : σ → σ} {Q : Unit → σ → Prop} (post : ∀ s, P s → Q () (f s)) :
    Can P (modify f : Prog σ A Unit) Q :=
  fun s holds => ⟨[],(),f s,post s holds,fun _ => rfl⟩
theorem can_ask (a : A) {Q : A → σ → Prop} (post : ∀ s, P s → Q a s) : Can P (ask : Prog σ A A) Q :=
  fun s holds => ⟨[a],a,s,post s holds,fun _ => rfl⟩
theorem can_assume (body : ∀ s, P s → Can (fun t => t = s) p Q) : Can P p Q :=
  fun s holds => body s holds s rfl
/-- A loop returns if each of its rounds asks something and brings a measure down. -/
theorem can_iterate {step : β → Prog σ A (β ⊕ α)} {I : β → σ → Prop} (measure : β → Nat)
    (round : ∀ b s, I b s → ∃ as r t, (∀ rest, step b s (as ++ rest) = ⟨some r,t,rest⟩) ∧
      r.elim (fun c => as ≠ [] ∧ measure c < measure b ∧ I c t) (Q · t)) (b : β) : Can (I b) (iterate step b) Q := by
  have bounded (n : Nat) : ∀ b s, measure b < n → I b s → ∃ as a t, Q a t ∧
      ∀ rest fuel, as.length < fuel → rounds step fuel b s (as ++ rest) = ⟨some a,t,rest⟩ := by
    induction n with
    | zero => exact fun b s none => absurd none (by omega)
    | succ n ih =>
      intro b s low holds
      obtain ⟨as,r,t,run,post⟩ := round b s holds
      cases r with
      | inr a =>
        refine ⟨as,a,t,post,fun rest fuel enough => ?_⟩
        obtain ⟨fuel,rfl⟩ : ∃ f, fuel = f + 1 := ⟨fuel - 1,by omega⟩
        rw [rounds,bind_run,run,next_some rfl]
        rfl
      | inl c =>
        obtain ⟨asked,down,kept⟩ := post
        obtain ⟨bs,a,u,post,run'⟩ := ih c t (by omega) kept
        refine ⟨as ++ bs,a,u,post,fun rest fuel enough => ?_⟩
        obtain ⟨fuel,rfl⟩ : ∃ f, fuel = f + 1 := ⟨fuel - 1,by omega⟩
        have some : 0 < as.length := length_pos_iff.mpr asked
        rw [rounds,bind_run,append_assoc,run,next_some rfl]
        exact run' rest fuel (by simp only [length_append] at enough; omega)
  intro s holds
  obtain ⟨as,a,t,post,run⟩ := bounded (measure b + 1) b s (by omega) holds
  exact ⟨as,a,t,post,fun rest => run rest _ (by simp only [length_append]; omega)⟩

end Possible

/-- Runs of programs of a family, each from a state that meets `start` and ending with
    a value that meets `ends`, in a row, with changes of the state between them. -/
inductive Chain {ι : Type} (p : ι → Prog σ A α) (start : σ → Prop) (ends : Option α → Prop) (between : σ → σ → Prop) :
    σ → σ → Prop where
  | refl (s : σ) : Chain p start ends between s s
  | run {s t : σ} (i : ι) (as : List A) (before : Chain p start ends between s t) (starts : start t)
      (ended : ends (p i t as).value) : Chain p start ends between s (p i t as).state
  | change {s t u : σ} (before : Chain p start ends between s t) (changed : between t u) :
      Chain p start ends between s u

/-- What every run and every change between runs keep holds along the chain. -/
theorem chain_invariant {ι : Type} {p : ι → Prog σ A α} {start : σ → Prop} {ends : Option α → Prop}
    {between : σ → σ → Prop} {I : σ → Prop}
    (runs : ∀ i s as, I s → start s → ends (p i s as).value → I (p i s as).state)
    (changes : ∀ s t, I s → between s t → I t)
    {s t : σ} (chain : Chain p start ends between s t) (first : I s) : I t := by
  induction chain with
  | refl => exact first
  | run i as _ starts ended ih => exact runs i _ as ih starts ended
  | change _ changed ih => exact changes _ _ ih changed

end Recovery.Program
