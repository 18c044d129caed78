import CaenDaq.Transition

/-!
# A layer over a transition system

Some of the actions of the layered system are actions of the system below, the others it
does not see. If the layer can always clear the way for an action of the system below, that
system runs with the layer as it runs without.
-/

namespace CaenDaq
namespace Layered

open Transition

variable {σ τ α β : Type}

theorem run_append {step : σ → α → Option σ} {s t : σ} {as bs : List α}
    (h : run step s as = some t) : run step s (as ++ bs) = run step t bs := by
  induction as generalizing s with
  | nil =>
    cases h
    rfl
  | cons a as ih =>
    obtain ⟨s', hstep, hrest⟩ := run_cons_some h
    rw [List.cons_append, run, hstep, Option.bind_some, ih hrest]

/-- A layer: what it shows of its state, and of its actions. -/
structure Over (step : σ → α → Option σ) (step' : τ → β → Option τ) where
  shown : τ → σ
  label : β → Option α
  visible : ∀ t t' b a, label b = some a → step' t b = some t' → step (shown t) a = some (shown t')
  hidden : ∀ t t' b, label b = none → step' t b = some t' → shown t' = shown t

namespace Over

variable {step : σ → α → Option σ} {step' : τ → β → Option τ} (layer : Over step step')

/-- A run of the layered system is a run of the system below. -/
theorem run_shown {t t' : τ} {bs : List β} (h : run step' t bs = some t') :
    run step (layer.shown t) (bs.filterMap layer.label) = some (layer.shown t') := by
  induction bs generalizing t with
  | nil =>
    cases h
    rfl
  | cons b bs ih =>
    obtain ⟨u, hstep, hrest⟩ := run_cons_some h
    cases hlabel : layer.label b with
    | none =>
      rw [List.filterMap_cons_none hlabel, ← layer.hidden t u b hlabel hstep]
      exact ih hrest
    | some a =>
      rw [List.filterMap_cons_some hlabel, run, layer.visible t u b a hlabel hstep,
        Option.bind_some]
      exact ih hrest

/-- Whatever the system below can do next, the layer can make way for, with actions of which
`D` holds. -/
def Yields (I : τ → Prop) (C : α → Prop) (D : α → β → Prop) : Prop :=
  ∀ t a s', C a → I t → step (layer.shown t) a = some s' →
    ∃ bs t', bs.filterMap layer.label = [a] ∧ (∀ b ∈ bs, D a b) ∧ run step' t bs = some t' ∧
      layer.shown t' = s' ∧ I t'

/-- A run of the system below is one of the layered system, with hidden actions added. -/
theorem run_lifted {I : τ → Prop} {C : α → Prop} {D : α → β → Prop}
    (hyields : layer.Yields I C D) {t : τ} (ht : I t) {as : List α} (has : ∀ a ∈ as, C a) {s : σ}
    (h : run step (layer.shown t) as = some s) :
    ∃ bs t', bs.filterMap layer.label = as ∧ (∀ b ∈ bs, ∃ a ∈ as, D a b) ∧
      run step' t bs = some t' ∧ layer.shown t' = s ∧ I t' := by
  induction as generalizing t with
  | nil =>
    cases h
    exact ⟨[], t, rfl, nofun, rfl, rfl, ht⟩
  | cons a as ih =>
    obtain ⟨s', hstep, hrest⟩ := run_cons_some h
    obtain ⟨bs, u, hlabels, hbs, hrun, rfl, hu⟩ :=
      hyields t a s' (has a List.mem_cons_self) ht hstep
    obtain ⟨cs, t', hlabels', hcs, hrun', hshown, ht'⟩ :=
      ih hu (fun b hb => has b (List.mem_cons_of_mem _ hb)) hrest
    refine ⟨bs ++ cs, t', ?_, fun b hb => ?_, (run_append hrun).trans hrun', hshown, ht'⟩
    · rw [List.filterMap_append, hlabels, hlabels']
      rfl
    · rcases List.mem_append.mp hb with hb | hb
      · exact ⟨a, List.mem_cons_self, hbs b hb⟩
      · obtain ⟨a', ha', hd⟩ := hcs b hb
        exact ⟨a', List.mem_cons_of_mem _ ha', hd⟩

end Over
end Layered
end CaenDaq
