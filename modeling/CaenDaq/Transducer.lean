import CaenDaq.Checked
import Mathlib.Data.List.Forall2

/-!
# Transducers

A transducer consumes inputs one at a time, carries a state and writes a list of
outputs for each. `run` is its behaviour on a whole input; the rules below cut an
input, nest one transducer in another, and compare two transducers on the part of
an input that concerns both.
-/

namespace CaenDaq
namespace Transducer

open Checked (Run)

variable {σ τ α β ε : Type}

def run (step : σ → α → List ε × σ) : σ → List α → List ε × σ
  | s, [] => ([], s)
  | s, x :: xs =>
    let r := step s x
    let t := run step r.2 xs
    (r.1 ++ t.1, t.2)

@[simp] theorem run_nil (step : σ → α → List ε × σ) (s : σ) : run step s [] = ([], s) := rfl

theorem run_cons (step : σ → α → List ε × σ) (s : σ) (x : α) (xs : List α) :
    run step s (x :: xs) =
      ((step s x).1 ++ (run step (step s x).2 xs).1, (run step (step s x).2 xs).2) := rfl

theorem run_append (step : σ → α → List ε × σ) (s : σ) (xs ys : List α) :
    run step s (xs ++ ys) =
      ((run step s xs).1 ++ (run step (run step s xs).2 ys).1,
        (run step (run step s xs).2 ys).2) := by
  induction xs generalizing s with
  | nil => simp
  | cons x xs ih => simp [run_cons, ih, List.append_assoc]

/-- Feeding blocks one by one is feeding their concatenation. -/
theorem run_flatten (step : σ → α → List ε × σ) (s : σ) (blocks : List (List α)) :
    run (run step) s blocks = run step s blocks.flatten := by
  induction blocks generalizing s with
  | nil => rfl
  | cons b bs ih => rw [List.flatten_cons, run_append, run_cons, ih]

theorem run_map (step : σ → α → List ε × σ) (f : β → α) (s : σ) (xs : List β) :
    run step s (xs.map f) = run (fun s x => step s (f x)) s xs := by
  induction xs generalizing s with
  | nil => rfl
  | cons x xs ih => rw [List.map_cons, run_cons, run_cons, ih]

theorem run_invariant {step : σ → α → List ε × σ} (P : σ → Prop) {xs : List α}
    (h : ∀ s, ∀ x ∈ xs, P s → P (step s x).2) (s : σ) (hs : P s) : P (run step s xs).2 := by
  induction xs generalizing s with
  | nil => exact hs
  | cons x xs ih =>
    rw [run_cons]
    exact ih (fun s y hy => h s y (by simp [hy])) _ (h s x (by simp) hs)

/-- What relates the inputs and the outputs so far to the state, and is kept by every step,
holds at the end of a run. -/
theorem run_history {step : σ → α → List ε × σ} (P : List α → List ε → σ → Prop) {xs : List α}
    (h : ∀ done past s, ∀ x ∈ xs, P done past s →
      P (done ++ [x]) (past ++ (step s x).1) (step s x).2)
    (done : List α) (past : List ε) (s : σ) (hs : P done past s) :
    P (done ++ xs) (past ++ (run step s xs).1) (run step s xs).2 := by
  induction xs generalizing done past s with
  | nil => simpa using hs
  | cons x xs ih =>
    have hrest := ih (fun done past s y hy => h done past s y (by simp [hy])) _ _ _
      (h done past s x (by simp) hs)
    rw [run_cons]
    simpa only [List.append_assoc, List.singleton_append] using hrest

/-- What holds of the outputs of every step, in the states that the run keeps to, holds of
the outputs of a run. -/
theorem run_outputs_invariant {step : σ → α → List ε × σ} (P : σ → Prop) (Q : ε → Prop)
    {xs : List α}
    (h : ∀ s, ∀ x ∈ xs, P s → (∀ e ∈ (step s x).1, Q e) ∧ P (step s x).2) (s : σ) (hs : P s) :
    (∀ e ∈ (run step s xs).1, Q e) ∧ P (run step s xs).2 := by
  induction xs generalizing s with
  | nil => exact ⟨fun e he => absurd he List.not_mem_nil, hs⟩
  | cons x xs ih =>
    obtain ⟨hout, hnext⟩ := h s x (by simp) hs
    obtain ⟨hrest, hend⟩ := ih (fun s y hy => h s y (by simp [hy])) _ hnext
    refine ⟨fun e he => ?_, hend⟩
    rw [run_cons, List.mem_append] at he
    rcases he with he | he
    · exact hout e he
    · exact hrest e he

theorem run_outputs {step : σ → α → List ε × σ} (Q : ε → Prop) {xs : List α}
    (h : ∀ s, ∀ x ∈ xs, ∀ e ∈ (step s x).1, Q e) (s : σ) : ∀ e ∈ (run step s xs).1, Q e :=
  (run_outputs_invariant (fun _ => True) Q (fun s x hx _ => ⟨h s x hx, trivial⟩) s trivial).1

/-- Where each input stands for some pieces, and what a step writes falls into outputs of
its pieces, what a run writes falls into outputs of all pieces in order. -/
theorem run_pieces {step : σ → α → List ε × σ} (P : σ → Prop) (pieces : α → List β)
    (Q : β → List ε → Prop) {xs : List α}
    (h : ∀ s, ∀ x ∈ xs, P s →
      (∃ outs, (step s x).1 = outs.flatten ∧ List.Forall₂ Q (pieces x) outs) ∧ P (step s x).2)
    (s : σ) (hs : P s) :
    ∃ outs, (run step s xs).1 = outs.flatten ∧ List.Forall₂ Q (xs.flatMap pieces) outs := by
  induction xs generalizing s with
  | nil => exact ⟨[], rfl, List.Forall₂.nil⟩
  | cons x xs ih =>
    obtain ⟨⟨outs, hout, hpieces⟩, hnext⟩ := h s x (by simp) hs
    obtain ⟨rest, hrest, hpieces'⟩ := ih (fun s y hy => h s y (by simp [hy])) _ hnext
    refine ⟨outs ++ rest, ?_, ?_⟩
    · rw [run_cons, hout, hrest, List.flatten_append]
    · rw [List.flatMap_cons]
      exact List.rel_append hpieces hpieces'

/-- Two-run projection. The inputs selected by `keep` drive both machines alike as
far as the outputs selected by `seen` go, the others write nothing selected and do
not disturb the relation; then the selected outputs of the first machine are those
of the second on the selected inputs alone. -/
theorem run_project {step : σ → α → List ε × σ} {step' : τ → α → List ε × τ}
    (R : σ → τ → Prop) (keep : α → Bool) (seen : ε → Bool)
    (hkeep : ∀ s t x, R s t → keep x = true →
      (step s x).1.filter seen = (step' t x).1.filter seen ∧ R (step s x).2 (step' t x).2)
    (hskip : ∀ s t x, R s t → keep x = false →
      (step s x).1.filter seen = [] ∧ R (step s x).2 t)
    (s : σ) (t : τ) (h : R s t) (xs : List α) :
    (run step s xs).1.filter seen = (run step' t (xs.filter keep)).1.filter seen ∧
      R (run step s xs).2 (run step' t (xs.filter keep)).2 := by
  induction xs generalizing s t with
  | nil => exact ⟨rfl, h⟩
  | cons x xs ih =>
    cases hx : keep x with
    | true =>
      have hh := hkeep s t x h hx
      have ht := ih _ _ hh.2
      simp only [List.filter_cons, hx, if_true, run_cons, List.filter_append]
      exact ⟨by rw [hh.1, ht.1], ht.2⟩
    | false =>
      have hh := hskip s t x h hx
      have ht := ih _ _ hh.2
      simp only [List.filter_cons, hx, run_cons, List.filter_append, hh.1, List.nil_append,
        Bool.false_eq_true, if_false]
      exact ht

/-- Two machines in related states that answer every input alike answer a whole input
alike. -/
theorem run_bisim {step : σ → α → List ε × σ} {step' : τ → α → List ε × τ} (R : σ → τ → Prop)
    {xs : List α} (h : ∀ s t, ∀ x ∈ xs, R s t →
      (step s x).1 = (step' t x).1 ∧ R (step s x).2 (step' t x).2)
    (s : σ) (t : τ) (hst : R s t) :
    (run step s xs).1 = (run step' t xs).1 ∧ R (run step s xs).2 (run step' t xs).2 := by
  induction xs generalizing s t with
  | nil => exact ⟨rfl, hst⟩
  | cons x xs ih =>
    obtain ⟨hout, hnext⟩ := h s t x (by simp) hst
    obtain ⟨hrest, hend⟩ := ih (fun s t y hy => h s t y (by simp [hy])) _ _ hnext
    rw [run_cons, run_cons, hout, hrest]
    exact ⟨rfl, hend⟩

/-- A machine with a state for each key, of which an input moves its own. -/
def keyed {ι : Type} [DecidableEq ι] (key : α → ι) (step : τ → α → List ε × τ) (s : ι → τ)
    (x : α) : List ε × (ι → τ) :=
  let r := step (s (key x)) x
  (r.1, Function.update s (key x) r.2)

/-- Inputs of one key run the machine on the state of that key. -/
theorem run_keyed {ι : Type} [DecidableEq ι] {key : α → ι} {step : τ → α → List ε × τ} {i : ι}
    {xs : List α} (h : ∀ x ∈ xs, key x = i) (s : ι → τ) :
    run (keyed key step) s xs =
      ((run step (s i) xs).1, Function.update s i (run step (s i) xs).2) := by
  induction xs generalizing s with
  | nil => simp
  | cons x xs ih =>
    obtain rfl : key x = i := h x (by simp)
    have hrest := ih (fun y hy => h y (by simp [hy])) (keyed key step s x).2
    rw [run_cons, run_cons, hrest]
    simp only [keyed, Function.update_self, Function.update_idem]

theorem foldl_keyed {ι : Type} [DecidableEq ι] (key : α → ι) (step : τ → α → τ) (s : ι → τ)
    (xs : List α) (i : ι) :
    xs.foldl (fun s x => Function.update s (key x) (step (s (key x)) x)) s i =
      (xs.filter fun x => key x = i).foldl step (s i) := by
  induction xs generalizing s with
  | nil => rfl
  | cons x xs ih =>
    rw [List.foldl_cons, ih, List.filter_cons]
    by_cases hx : key x = i
    · subst hx
      simp
    · simp [hx, Ne.symm hx]

theorem foldl_keyed_unique {ι : Type} [DecidableEq ι] {key : α → ι} {xs : List α}
    (h : (xs.map key).Nodup) (step : τ → α → τ) (s : ι → τ) {x : α} (hx : x ∈ xs) :
    xs.foldl (fun s x => Function.update s (key x) (step (s (key x)) x)) s (key x) =
      step (s (key x)) x := by
  have hone : (xs.filter fun y => key y = key x) = [x] := by
    obtain ⟨before, after, rfl⟩ := List.append_of_mem hx
    rw [List.map_append, List.map_cons, List.nodup_append, List.nodup_cons] at h
    obtain ⟨_, ⟨hafter, _⟩, hbefore⟩ := h
    have hnone : ∀ ys : List α, (∀ y ∈ ys, key y ≠ key x) →
        (ys.filter fun y => key y = key x) = [] := by
      intro ys hys
      exact List.filter_eq_nil_iff.mpr fun y hy hsame => hys y hy (of_decide_eq_true hsame)
    rw [List.filter_append, List.filter_cons_of_pos (by simp), hnone before, hnone after,
      List.nil_append]
    · exact fun y hy hsame => hafter (List.mem_map.mpr ⟨y, hy, hsame⟩)
    · exact fun y hy => hbefore _ (List.mem_map_of_mem hy) _ List.mem_cons_self
  rw [foldl_keyed, hone]
  rfl

/-- Every step of a run meets a condition on its input and the state it starts from. -/
def Along (step : σ → α → List ε × σ) (P : σ → α → Prop) : σ → List α → Prop
  | _, [] => True
  | s, x :: xs => P s x ∧ Along step P (step s x).2 xs

/-- A counting loop of checked steps, from index `i` on for `n` rounds. -/
def forLoop (body : σ → ℕ → Run (List ε × σ)) (s : σ) (i : ℕ) : ℕ → Run (List ε × σ)
  | 0 => pure ([], s)
  | n + 1 => do
    let r ← body s i
    let t ← forLoop body r.2 (i + 1) n
    pure (r.1 ++ t.1, t.2)

/-- A checked loop whose rounds are those of a transducer is a run of it. -/
theorem forLoop_ok {body : σ → ℕ → Run (List ε × σ)} {step : σ → α → List ε × σ}
    (f : ℕ → α) (s : σ) (i n : ℕ)
    (h : ∀ s k, i ≤ k → k < i + n → body s k = .ok (step s (f k))) :
    forLoop body s i n = .ok (run step s ((List.range' i n).map f)) := by
  induction n generalizing s i with
  | zero => rfl
  | succ n ih =>
    have hh := h s i (by omega) (by omega)
    have ht := ih (step s (f i)).2 (i + 1) (fun s k h₁ h₂ => h s k (by omega) (by omega))
    rw [forLoop, hh, Checked.ok_bind, ht, Checked.ok_bind, List.range'_succ, List.map_cons,
      run_cons]
    rfl

end Transducer
end CaenDaq
