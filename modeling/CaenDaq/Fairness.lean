import CaenDaq.Transition
import Mathlib.Order.WellFounded

/-!
# What must happen in the end

Endless runs of a system of guarded actions, in which at any moment an action is taken or
nothing happens. The actions belong to agents, and a run is fair if no agent that could act
from some moment on waits for ever. A goal is reached in every fair run if at each moment
some agent can bring it nearer, and no one can move it away or that agent out of its place.
-/

namespace CaenDaq
namespace Fairness

variable {σ α ι W : Type}

def Endless (step : σ → α → Option σ) (s : ℕ → σ) (a : ℕ → Option α) : Prop :=
  ∀ k, match a k with
    | none => s (k + 1) = s k
    | some x => step (s k) x = some (s (k + 1))

def Ready (step : σ → α → Option σ) (moves : ι → α → Prop) (g : ι) (s : σ) : Prop :=
  ∃ x, moves g x ∧ (step s x).isSome

/-- An agent that can act from some moment on acts some time. -/
def Fair (step : σ → α → Option σ) (moves : ι → α → Prop) (s : ℕ → σ) (a : ℕ → Option α) : Prop :=
  ∀ g k, (∀ m, k ≤ m → Ready step moves g (s m)) → ∃ m x, k ≤ m ∧ a m = some x ∧ moves g x

variable {step : σ → α → Option σ} {moves : ι → α → Prop} {s : ℕ → σ} {a : ℕ → Option α}

theorem Endless.takes (h : Endless step s a) {k : ℕ} {x : α} (ha : a k = some x) :
    step (s k) x = some (s (k + 1)) := by
  have hnext := h k
  rwa [ha] at hnext

theorem Endless.stays (h : Endless step s a) {k : ℕ} (ha : a k = none) : s (k + 1) = s k := by
  have hnext := h k
  rwa [ha] at hnext

theorem Endless.invariant (h : Endless step s a) {I : σ → Prop}
    (hstep : ∀ k x, a k = some x → I (s k) → step (s k) x = some (s (k + 1)) → I (s (k + 1)))
    {k : ℕ} (hk : I (s k)) {m : ℕ} (hm : k ≤ m) : I (s m) := by
  induction m, hm using Nat.le_induction with
  | base => exact hk
  | succ m hm ih =>
    cases ha : a m with
    | none =>
      rw [h.stays ha]
      exact ih
    | some x => exact hstep m x ha ih (h.takes ha)

/-- A rank of the states, and for each the agent that is to lower it. -/
structure Ranked [LT W] (step : σ → α → Option σ) (moves : ι → α → Prop) (I goal : σ → Prop)
    (rank : σ → W) (helper : σ → ι) : Prop where
  ready : ∀ s, I s → ¬goal s → Ready step moves (helper s) s
  down : ∀ s s' x, I s → ¬goal s → step s x = some s' → goal s' ∨ rank s' < rank s ∨
    (rank s' = rank s ∧ helper s' = helper s ∧ ¬moves (helper s) x)

/-- Until the goal is reached or the rank has sunk, nothing changes and the helper does not
act. -/
theorem waits [Preorder W] {I goal : σ → Prop} {rank : σ → W} {helper : σ → ι}
    (h : Ranked step moves I goal rank helper) (hrun : Endless step s a) {k : ℕ}
    (hI : ∀ m, k ≤ m → I (s m))
    (hno : ∀ m, k ≤ m → ¬goal (s m) ∧ ¬rank (s m) < rank (s k)) {m : ℕ} (hm : k ≤ m) :
    rank (s m) = rank (s k) ∧ helper (s m) = helper (s k) ∧
      ∀ x, a m = some x → ¬moves (helper (s k)) x := by
  have hsame : rank (s m) = rank (s k) ∧ helper (s m) = helper (s k) := by
    induction m, hm using Nat.le_induction with
    | base => exact ⟨rfl, rfl⟩
    | succ m hm ih =>
      obtain ⟨hrank, hhelper⟩ := ih
      cases ha : a m with
      | none =>
        rw [hrun.stays ha]
        exact ⟨hrank, hhelper⟩
      | some x =>
        obtain ⟨hgoal, hlow⟩ := hno (m + 1) (by omega)
        rcases h.down _ _ x (hI m hm) (hno m hm).1 (hrun.takes ha) with
          hdone | hless | ⟨heq, hsame, _⟩
        · exact absurd hdone hgoal
        · exact absurd (hrank ▸ hless) hlow
        · exact ⟨heq.trans hrank, hsame.trans hhelper⟩
  refine ⟨hsame.1, hsame.2, fun x ha hmoves => ?_⟩
  obtain ⟨hgoal, hlow⟩ := hno (m + 1) (by omega)
  rcases h.down _ _ x (hI m hm) (hno m hm).1 (hrun.takes ha) with hdone | hless | ⟨_, _, hidle⟩
  · exact hgoal hdone
  · exact hlow (hsame.1 ▸ hless)
  · exact hidle (hsame.2 ▸ hmoves)

/-- In a fair run a goal with a well-founded rank is reached. -/
theorem Ranked.attains [Preorder W] [WellFoundedLT W] {I goal : σ → Prop} {rank : σ → W}
    {helper : σ → ι} (h : Ranked step moves I goal rank helper) (hrun : Endless step s a)
    (hfair : Fair step moves s a) {k : ℕ} (hI : ∀ m, k ≤ m → I (s m)) :
    ∃ m, k ≤ m ∧ goal (s m) := by
  induction hrank : rank (s k) using WellFoundedLT.induction generalizing k with
  | ind w ih =>
    subst hrank
    by_contra hnever
    have hno : ∀ m, k ≤ m → ¬goal (s m) ∧ ¬rank (s m) < rank (s k) := by
      refine fun m hm => ⟨fun hgoal => hnever ⟨m, hm, hgoal⟩, fun hless => ?_⟩
      obtain ⟨m', hm', hgoal⟩ := ih _ hless (fun l hl => hI l (hm.trans hl)) rfl
      exact hnever ⟨m', hm.trans hm', hgoal⟩
    have hready : ∀ m, k ≤ m → Ready step moves (helper (s k)) (s m) := by
      intro m hm
      rw [← (waits h hrun hI hno hm).2.1]
      exact h.ready _ (hI m hm) (hno m hm).1
    obtain ⟨m, x, hm, ha, hmoves⟩ := hfair _ k hready
    exact (waits h hrun hI hno hm).2.2 x ha hmoves

/-- The states of a schedule, the last of which stays. -/
def states (step : σ → α → Option σ) (s : σ) : List α → ℕ → σ
  | [], _ => s
  | _ :: _, 0 => s
  | x :: xs, k + 1 => match step s x with
    | some s' => states step s' xs k
    | none => s

theorem states_endless {s t : σ} {xs : List α} (h : Transition.run step s xs = some t) :
    Endless step (states step s xs) (fun k => xs[k]?) ∧
      states step s xs 0 = s ∧ ∀ k, xs.length ≤ k → states step s xs k = t := by
  induction xs generalizing s with
  | nil =>
    cases h
    exact ⟨fun k => rfl, rfl, fun k _ => rfl⟩
  | cons x xs ih =>
    obtain ⟨u, hstep, hrest⟩ := Transition.run_cons_some h
    obtain ⟨hrun, hfirst, hlast⟩ := ih hrest
    have hlater : ∀ k, states step s (x :: xs) (k + 1) = states step u xs k := by
      intro k
      rw [states, hstep]
    refine ⟨fun k => ?_, rfl, fun k hk => ?_⟩
    · cases k with
      | zero =>
        show step s x = some (states step s (x :: xs) 1)
        rw [hlater, hfirst, hstep]
      | succ k =>
        rw [hlater, hlater]
        exact hrun k
    · cases k with
      | zero => exact absurd hk (Nat.not_succ_le_zero _)
      | succ k =>
        rw [hlater]
        exact hlast k (Nat.le_of_succ_le_succ hk)

theorem states_fair {s t : σ} {xs : List α} (h : Transition.run step s xs = some t)
    (hrest : ∀ g x, moves g x → step t x = none) :
    Fair step moves (states step s xs) (fun k => xs[k]?) := by
  intro g k hready
  obtain ⟨_, _, hlast⟩ := states_endless h
  obtain ⟨x, hmoves, hsome⟩ := hready (max k xs.length) (Nat.le_max_left _ _)
  rw [hlast _ (Nat.le_max_right _ _), hrest g x hmoves] at hsome
  cases hsome

end Fairness
end CaenDaq
