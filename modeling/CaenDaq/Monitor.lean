import Mathlib.Data.List.Basic

/-!
# Monitors

A monitor follows a sequence of calls with a state of its own and says of each call whether
it was permitted where it stands.
-/

namespace CaenDaq

structure Monitor (σ α : Type) where
  next : σ → α → σ
  Permits : σ → α → Prop

namespace Monitor

variable {σ α : Type} (m : Monitor σ α)

def after (s : σ) (calls : List α) : σ := calls.foldl m.next s

/-- Each call of a sequence is permitted where it stands. -/
def Accepts : σ → List α → Prop
  | _, [] => True
  | s, a :: calls => m.Permits s a ∧ Accepts (m.next s a) calls

/-- A call that is always permitted and changes nothing. -/
def Ignores (a : α) : Prop := ∀ s, m.Permits s a ∧ m.next s a = s

variable {m}

theorem after_append (s : σ) (xs ys : List α) :
    m.after s (xs ++ ys) = m.after (m.after s xs) ys := List.foldl_append

theorem accepts_append {s : σ} {xs ys : List α} :
    m.Accepts s (xs ++ ys) ↔ m.Accepts s xs ∧ m.Accepts (m.after s xs) ys := by
  induction xs generalizing s with
  | nil => exact ⟨fun h => ⟨trivial, h⟩, And.right⟩
  | cons a xs ih =>
    show m.Permits s a ∧ m.Accepts (m.next s a) (xs ++ ys) ↔ _
    rw [ih, ← and_assoc]
    rfl

theorem accepts_ignored {calls : List α} (h : ∀ a ∈ calls, m.Ignores a) (s : σ) :
    m.Accepts s calls ∧ m.after s calls = s := by
  induction calls with
  | nil => exact ⟨trivial, rfl⟩
  | cons a calls ih =>
    obtain ⟨ha, hcalls⟩ := List.forall_mem_cons.mp h
    obtain ⟨hpermits, hnext⟩ := ha s
    obtain ⟨haccepts, hafter⟩ := ih hcalls
    refine ⟨⟨hpermits, hnext.symm ▸ haccepts⟩, ?_⟩
    show m.after (m.next s a) calls = s
    rw [hnext, hafter]

end Monitor
end CaenDaq
