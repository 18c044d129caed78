import Mathlib.Data.List.Basic

/-!
# Guarded transitions

A system whose actions are possible in some states only. A schedule is a list of
actions, and running it gives a state if each of them was possible in its turn.
-/

namespace CaenDaq
namespace Transition

variable {σ α : Type}

def run (step : σ → α → Option σ) : σ → List α → Option σ
  | s, [] => some s
  | s, a :: as => (step s a).bind fun s' => run step s' as

theorem run_cons_some {step : σ → α → Option σ} {s t : σ} {a : α} {as : List α}
    (h : run step s (a :: as) = some t) : ∃ s', step s a = some s' ∧ run step s' as = some t :=
  Option.bind_eq_some_iff.mp h

/-- What every possible action keeps holds at the end of a schedule. -/
theorem run_invariant {step : σ → α → Option σ} {P : σ → Prop} {as : List α}
    (h : ∀ s s', ∀ a ∈ as, P s → step s a = some s' → P s') {s t : σ} (hs : P s)
    (hrun : run step s as = some t) : P t := by
  induction as generalizing s with
  | nil =>
    cases hrun
    exact hs
  | cons a as ih =>
    obtain ⟨s', hstep, hrest⟩ := run_cons_some hrun
    exact ih (fun s t b hb => h s t b (List.mem_cons_of_mem _ hb))
      (h s s' a List.mem_cons_self hs hstep) hrest

/-- Every action of a schedule is taken in a state that meets a condition. -/
def Along (C : σ → α → Prop) (step : σ → α → Option σ) : σ → List α → Prop
  | _, [] => True
  | s, a :: as => C s a ∧ ∀ s' ∈ step s a, Along C step s' as

instance along_decidable {C : σ → α → Prop} [∀ s a, Decidable (C s a)] {step : σ → α → Option σ} :
    ∀ s as, Decidable (Along C step s as)
  | _, [] => inferInstanceAs (Decidable True)
  | s, a :: as =>
    have : ∀ s', Decidable (Along C step s' as) := fun s' => along_decidable s' as
    inferInstanceAs (Decidable (C s a ∧ ∀ s' ∈ step s a, Along C step s' as))

theorem run_invariant_along {step : σ → α → Option σ} {C : σ → α → Prop} {P : σ → Prop}
    (h : ∀ s s' a, P s → C s a → step s a = some s' → P s') {as : List α} {s t : σ} (hs : P s)
    (hmeets : Along C step s as) (hrun : run step s as = some t) : P t := by
  induction as generalizing s with
  | nil =>
    cases hrun
    exact hs
  | cons a as ih =>
    obtain ⟨s', hstep, hrest⟩ := run_cons_some hrun
    exact ih (h s s' a hs hmeets.1 hstep) (hmeets.2 s' hstep) hrest

end Transition
end CaenDaq
