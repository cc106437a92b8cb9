import Mathlib.Logic.Basic

/-!
Machines that take a step for an input, or stop for good, and what holds in every run of one.
-/
namespace Recovery.Machines
open Option
universe u v
variable {State : Type u} {Input : Type v} (step : State → Input → Option State)

/-- A run over a list of inputs; none if a step stops the machine. -/
def run : State → List Input → Option State
  | s, [] => some s
  | s, i :: rest => (step s i).bind fun t => run t rest

/-- Every step of the run meets a condition on the state before it and its input. -/
def Meets (cond : State → Input → Prop) : State → List Input → Prop
  | _, [] => True
  | s, i :: rest => cond s i ∧ ∀ t, step s i = some t → Meets cond t rest

instance decidableMeets {cond : State → Input → Prop} [∀ s i, Decidable (cond s i)] :
    ∀ s inputs, Decidable (Meets step cond s inputs)
  | _, [] => isTrue trivial
  | s, i :: rest =>
    have behind : Decidable (∀ t, step s i = some t → Meets step cond t rest) :=
      match step s i with
      | none => isTrue fun _ first => nomatch first
      | some t =>
        have : Decidable (Meets step cond t rest) := decidableMeets t rest
        decidable_of_iff (Meets step cond t rest) ⟨fun holds _ same => Option.some.inj same ▸ holds, fun all => all t rfl⟩
    inferInstanceAs (Decidable (_ ∧ _))

variable {step}

variable {t : State} {inputs : List Input}

theorem run_cons {s : State} {i : Input} {rest : List Input} :
    run step s (i :: rest) = some t ↔ ∃ next, step s i = some next ∧ run step next rest = some t :=
  bind_eq_some_iff

theorem run_keeps {cond : State → Input → Prop} {Inv : State → Prop}
    (keeps : ∀ {s i t}, Inv s → cond s i → step s i = some t → Inv t) {s : State} (start : Inv s)
    (meets : Meets step cond s inputs) (runs : run step s inputs = some t) : Inv t := by
  induction inputs generalizing s with
  | nil =>
    obtain rfl := some.inj runs
    exact start
  | cons i rest ih =>
    obtain ⟨next,first,behind⟩ := run_cons.mp runs
    exact ih (keeps start meets.1 first) (meets.2 next first) behind

theorem run_invariant {Inv : State → Prop} (keeps : ∀ {s i t}, Inv s → step s i = some t → Inv t) {s : State}
    (start : Inv s) (runs : run step s inputs = some t) : Inv t := by
  induction inputs generalizing s with
  | nil =>
    obtain rfl := some.inj runs
    exact start
  | cons i rest ih =>
    obtain ⟨next,first,behind⟩ := run_cons.mp runs
    exact ih (keeps start first) behind

theorem meets_mono {weak strong : State → Input → Prop} (imp : ∀ s i, strong s i → weak s i) {s : State}
    (meets : Meets step strong s inputs) : Meets step weak s inputs := by
  induction inputs generalizing s with
  | nil => trivial
  | cons i rest ih => exact ⟨imp s i meets.1,fun t first => ih (meets.2 t first)⟩
theorem meets_of_all {cond : Input → Prop} (all : ∀ i ∈ inputs, cond i) {s : State} : Meets step (fun _ i => cond i) s inputs := by
  induction inputs generalizing s with
  | nil => trivial
  | cons i rest ih => exact ⟨all i List.mem_cons_self,fun _ _ => ih fun j member => all j (List.mem_cons_of_mem _ member)⟩

end Recovery.Machines
