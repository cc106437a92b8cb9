import Recovery.Program

/-!
Programs that append to a log in their state. Whatever answers come, a program returns after some
of them, and what it returns and has logged until then meet a condition, unless it logs something bad.
-/
namespace Recovery.Logging
open Program Program.Prog

variable {σ A E α β : Type}

def first (answers : Nat → A) (n : Nat) : List A := (List.range n).map answers

theorem first_add (answers : Nat → A) (n m : Nat) :
    first answers (n + m) = first answers n ++ first (fun i => answers (n + i)) m := by
  simp [first,List.range_add,Function.comp_def]

variable (log : σ → List E) (bad : E → Prop)

def Grows (p : Prog σ A α) : Prop := ∀ s as, ∃ new, log (p s as).state = log s ++ new
/-- The program appends to the log. From every state, it returns once it has got enough answers, and what it
    returns and appends meet `Q`, unless it has appended something bad by then. -/
structure Logs (p : Prog σ A α) (Q : α → List E → Prop) : Prop where
  grows : Grows log p
  returns : ∀ s (answers : Nat → A), ∃ n,
    (∃ a t new, (∀ rest, p s (first answers n ++ rest) = ⟨some a, t, rest⟩) ∧ log t = log s ++ new ∧ Q a new) ∨
    ∃ e, bad e ∧ ∀ rest, ∃ new, e ∈ new ∧ log (p s (first answers n ++ rest)).state = log s ++ new

variable {log bad} {p : Prog σ A α} {Q : α → List E → Prop}

theorem grows_bind {k : α → Prog σ A β} (body : Grows log p) (later : ∀ a, Grows log (k a)) : Grows log (p >>= k) := by
  intro s as
  obtain ⟨old,grown⟩ := body s as
  rw [bind_run]
  cases value : (p s as).value with
  | none => exact ⟨old,by rw [next_none value,grown]⟩
  | some a =>
    obtain ⟨new,more⟩ := later a (p s as).state (p s as).rest
    exact ⟨old ++ new,by rw [next_some value,more,grown,List.append_assoc]⟩

theorem logs_pure (a : α) (post : Q a []) : Logs log bad (pure a : Prog σ A α) Q :=
  ⟨fun _ _ => ⟨[],by simp [pure_run]⟩,fun s _ => ⟨0,.inl ⟨a,s,[],fun _ => rfl,by simp,post⟩⟩⟩
theorem logs_bind {k : α → Prog σ A β} {R : β → List E → Prop} (body : Logs log bad p Q) (grows : ∀ a, Grows log (k a))
    (later : ∀ a old, Q a old → Logs log bad (k a) fun b new => R b (old ++ new)) : Logs log bad (p >>= k) R := by
  refine ⟨grows_bind body.grows grows,fun s answers => ?_⟩
  obtain ⟨n,⟨a,t,old,run,grown,mid⟩ | ⟨e,wrong,found⟩⟩ := body.returns s answers
  · have goes (m : Nat) (rest : List A) : (p >>= k) s (first answers (n + m) ++ rest) =
        k a t (first (fun i => answers (n + i)) m ++ rest) := by
      rw [bind_run,first_add,List.append_assoc,run,next_some rfl]
    obtain ⟨m,⟨b,u,new,run',grown',post⟩ | ⟨e,wrong,found⟩⟩ := (later a old mid).returns t fun i => answers (n + i)
    · exact ⟨n + m,.inl ⟨b,u,old ++ new,fun rest => (goes m rest).trans (run' rest),
        by rw [grown',grown,List.append_assoc],post⟩⟩
    · refine ⟨n + m,.inr ⟨e,wrong,fun rest => ?_⟩⟩
      obtain ⟨new,member,grown'⟩ := found rest
      exact ⟨old ++ new,by simp [member],by rw [goes,grown',grown,List.append_assoc]⟩
  · refine ⟨n,.inr ⟨e,wrong,fun rest => ?_⟩⟩
    obtain ⟨new,member,grown⟩ := found rest
    rw [bind_run]
    cases value : (p s (first answers n ++ rest)).value with
    | none => exact ⟨new,member,by rw [next_none value,grown]⟩
    | some a =>
      obtain ⟨more,grown'⟩ := grows a (p s (first answers n ++ rest)).state (p s (first answers n ++ rest)).rest
      exact ⟨new ++ more,by simp [member],by rw [next_some value,grown',grown,List.append_assoc]⟩
theorem logs_conseq {R : α → List E → Prop} (body : Logs log bad p Q) (weaker : ∀ a new, Q a new → R a new) :
    Logs log bad p R := by
  refine ⟨body.grows,fun s answers => ?_⟩
  obtain ⟨n,⟨a,t,new,run,grown,post⟩ | other⟩ := body.returns s answers
  · exact ⟨n,.inl ⟨a,t,new,run,grown,weaker a new post⟩⟩
  · exact ⟨n,.inr other⟩
theorem logs_ite {c : Prop} [Decidable c] {q : Prog σ A α} (yes : c → Logs log bad p Q) (no : ¬ c → Logs log bad q Q) :
    Logs log bad (if c then p else q) Q := by
  by_cases h : c
  · simpa [h] using yes h
  · simpa [h] using no h
theorem logs_get {k : σ → Prog σ A α} (body : ∀ s, Logs log bad (k s) Q) : Logs log bad (get >>= k) Q :=
  ⟨fun s as => (body s).grows s as,fun s answers => (body s).returns s answers⟩
theorem logs_modify {f : σ → σ} {new : List E} {Q : Unit → List E → Prop} (grows : ∀ s, log (f s) = log s ++ new)
    (post : Q () new) : Logs log bad (modify f : Prog σ A Unit) Q :=
  ⟨fun s _ => ⟨new,grows s⟩,fun s _ => ⟨0,.inl ⟨(),f s,new,fun _ => rfl,grows s,post⟩⟩⟩
theorem logs_after {f : σ → σ} {k : Unit → Prog σ A α} {new : List E} (grows : ∀ s, log (f s) = log s ++ new)
    (later : Logs log bad (k ()) fun a more => Q a (new ++ more)) : Logs log bad (modify f >>= k) Q := by
  refine logs_bind (logs_modify (Q := fun _ old => old = new) grows rfl) (fun _ => later.grows) ?_
  rintro _ _ rfl
  exact later
theorem logs_ask {Q : A → List E → Prop} (post : ∀ a, Q a []) : Logs log bad (ask : Prog σ A A) Q :=
  ⟨fun s as => ⟨[],by cases as <;> simp [ask]⟩,fun s answers => ⟨1,.inl ⟨answers 0,s,[],fun _ => rfl,by simp,post _⟩⟩⟩
/-- A program that appends something bad at once. -/
theorem logs_bad {f : σ → σ} {k : Unit → Prog σ A α} {e : E} (grows : ∀ s, log (f s) = log s ++ [e])
    (wrong : bad e) (later : Grows log (k ())) : Logs log bad (modify f >>= k) Q := by
  refine ⟨grows_bind (fun s _ => ⟨[e],grows s⟩) fun _ => later,fun s _ => ⟨0,.inr ⟨e,wrong,fun rest => ?_⟩⟩⟩
  obtain ⟨more,grown⟩ := later (f s) rest
  exact ⟨e :: more,by simp,by rw [bind_run,modify_run,next_some rfl]; exact grown.trans (by rw [grows]; simp)⟩

end Recovery.Logging
