import Mathlib.Tactic.Common

/-!
Computations that leave a trace, such as the addresses that were read, and may stop early.
-/
namespace Recovery.Tracing

/-- The result of a computation, or why it stopped, and what it traced. -/
structure Traced (A E α : Type) where
  result : Except E α
  trace : List A

namespace Traced
variable {A E α β : Type}

instance : Monad (Traced A E) where
  pure a := ⟨.ok a, []⟩
  bind p k := match p.result with
    | .ok a => ⟨(k a).result, p.trace ++ (k a).trace⟩
    | .error e => ⟨.error e, p.trace⟩

def stop (e : E) : Traced A E α := ⟨.error e, []⟩
def note (a : A) : Traced A E Unit := ⟨.ok (), [a]⟩

@[simp] theorem pure_result (a : α) : (pure a : Traced A E α).result = .ok a := rfl
@[simp] theorem pure_trace (a : α) : (pure a : Traced A E α).trace = [] := rfl
@[simp] theorem stop_result (e : E) : (stop e : Traced A E α).result = .error e := rfl
@[simp] theorem stop_trace (e : E) : (stop e : Traced A E α).trace = [] := rfl

theorem bind_eq_ok {p : Traced A E α} {a : α} (ok : p.result = .ok a) (k : α → Traced A E β) :
    p >>= k = ⟨(k a).result,p.trace ++ (k a).trace⟩ := by
  simp only [Bind.bind,ok]
theorem bind_eq_error {p : Traced A E α} {e : E} (stopped : p.result = .error e) (k : α → Traced A E β) :
    p >>= k = ⟨.error e,p.trace⟩ := by
  simp only [Bind.bind,stopped]
theorem bind_result {p : Traced A E α} {a : α} (ok : p.result = .ok a) (k : α → Traced A E β) :
    (p >>= k).result = (k a).result := by
  rw [bind_eq_ok ok]
theorem bind_trace {p : Traced A E α} {a : α} (ok : p.result = .ok a) (k : α → Traced A E β) :
    (p >>= k).trace = p.trace ++ (k a).trace := by
  rw [bind_eq_ok ok]
theorem note_bind (a : A) (k : Unit → Traced A E α) : note a >>= k = ⟨(k ()).result,a :: (k ()).trace⟩ := rfl
theorem bind_returns {p : Traced A E α} {k : α → Traced A E β} {b : β} :
    (p >>= k).result = .ok b ↔ ∃ a, p.result = .ok a ∧ (k a).result = .ok b := by
  cases found : p.result with
  | ok a => simp [bind_result found]
  | error e => simp [bind_eq_error found]

/-- All of the trace has a property. -/
def Within (I : A → Prop) (p : Traced A E α) : Prop := ∀ a ∈ p.trace, I a

@[simp] theorem within_pure (I : A → Prop) (a : α) : Within I (pure a : Traced A E α) := by simp [Within]
@[simp] theorem within_stop (I : A → Prop) (e : E) : Within I (stop e : Traced A E α) := by simp [Within]
@[simp] theorem within_note (I : A → Prop) (a : A) : Within I (note a : Traced A E Unit) ↔ I a := by simp [Within,note]
theorem within_bind {I : A → Prop} {p : Traced A E α} {k : α → Traced A E β} :
    Within I (p >>= k) ↔ Within I p ∧ ∀ a, p.result = .ok a → Within I (k a) := by
  cases found : p.result with
  | ok a => simp [Within,bind_eq_ok found,or_imp,forall_and]
  | error e => simp [Within,bind_eq_error found]
theorem within_bind_ok {I : A → Prop} {p : Traced A E α} {a : α} (ok : p.result = .ok a) {k : α → Traced A E β} :
    Within I (p >>= k) ↔ Within I p ∧ Within I (k a) := by
  simp [within_bind,ok]

end Traced

end Recovery.Tracing
