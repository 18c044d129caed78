import Mathlib.Data.List.Forall2

/-!
# Prefixes of batches

Of each batch of a sequence some prefix is kept, the rest is lost.
-/

namespace CaenDaq
namespace Batches

variable {α : Type}

/-- A list is made of a prefix of each batch, in order. -/
def Prefixes (xs : List α) (batches : List (List α)) : Prop :=
  ∃ kept, List.Forall₂ (· <+: ·) kept batches ∧ kept.flatten = xs

theorem prefixes_nil : Prefixes ([] : List α) [] := ⟨[], List.Forall₂.nil, rfl⟩

theorem prefixes_none (batches : List (List α)) : Prefixes [] batches := by
  induction batches with
  | nil => exact prefixes_nil
  | cons batch batches ih =>
    obtain ⟨kept, hkept, hflat⟩ := ih
    exact ⟨[] :: kept, List.Forall₂.cons List.nil_prefix hkept, hflat⟩

theorem Prefixes.snoc {xs ys batch : List α} {batches : List (List α)} (h : Prefixes xs batches)
    (hys : ys <+: batch) : Prefixes (xs ++ ys) (batches ++ [batch]) := by
  obtain ⟨kept, hkept, rfl⟩ := h
  refine ⟨kept ++ [ys], List.rel_append hkept (List.Forall₂.cons hys List.Forall₂.nil), ?_⟩
  rw [List.flatten_append, List.flatten_singleton]

/-- A part that is dropped at the end leaves prefixes of the batches. -/
theorem Prefixes.of_append {xs ys : List α} {batches : List (List α)}
    (h : Prefixes (xs ++ ys) batches) : Prefixes xs batches := by
  obtain ⟨kept, hkept, hflat⟩ := h
  induction hkept generalizing xs with
  | nil =>
    obtain rfl : xs = [] := (List.append_eq_nil_iff.mp hflat.symm).1
    exact prefixes_nil
  | @cons first batch kept batches hfirst hkept ih =>
    rw [List.flatten_cons] at hflat
    rcases List.append_eq_append_iff.mp hflat with ⟨more, hxs, hrest⟩ | ⟨more, hfirst', hys⟩
    · -- the cut falls behind the first batch
      obtain ⟨kept', hkept', rfl⟩ := ih hrest
      exact ⟨first :: kept', List.Forall₂.cons hfirst hkept', hxs.symm⟩
    · obtain ⟨none, hnone, hflat⟩ := prefixes_none batches
      refine ⟨xs :: none, List.Forall₂.cons (List.IsPrefix.trans ⟨more, hfirst'.symm⟩ hfirst) hnone, ?_⟩
      rw [List.flatten_cons, hflat, List.append_nil]

theorem Prefixes.sublist {xs : List α} {batches : List (List α)} (h : Prefixes xs batches) :
    xs.Sublist batches.flatten := by
  obtain ⟨kept, hkept, rfl⟩ := h
  induction hkept with
  | nil => exact List.Sublist.refl []
  | cons hfirst _ ih => exact hfirst.sublist.append ih

end Batches
end CaenDaq
