import Mathlib.Algebra.BigOperators.Group.List.Basic
import Mathlib.Algebra.Order.BigOperators.Group.List
import Mathlib.Algebra.Order.Ring.Nat

/-!
# Counting into arrays of machine words

An array of counters of fixed width, allocated when it is first needed. While the sum of
its bins fits a counter, no bin wraps, and counting up one bin adds one to the sum.
-/

namespace CaenDaq
namespace Counting

variable {w : ℕ}

def total (bins : List (BitVec w)) : ℕ := (bins.map BitVec.toNat).sum

def allocated (size : ℕ) (bins : List (BitVec w)) : List (BitVec w) :=
  if bins.isEmpty then List.replicate size 0 else bins

def increment (bin : ℕ) (bins : List (BitVec w)) : List (BitVec w) := bins.modify bin (· + 1)

/-- The array is there with its full size, or not yet, and sums to a count. -/
structure Counted (size n : ℕ) (bins : List (BitVec w)) : Prop where
  allocation : bins = [] ∨ bins.length = size
  sum : total bins = n

theorem counted_nil (size : ℕ) : Counted size 0 ([] : List (BitVec w)) := ⟨Or.inl rfl, rfl⟩

theorem total_replicate_zero (size : ℕ) : total (List.replicate size (0 : BitVec w)) = 0 := by
  rw [total, List.map_replicate, List.sum_replicate]
  exact Nat.mul_zero size

theorem total_increment {bins : List (BitVec w)} {bin : ℕ} (hbin : bin < bins.length)
    (hroom : total bins + 1 < 2 ^ w) : total (increment bin bins) = total bins + 1 := by
  unfold increment
  induction bins generalizing bin with
  | nil => exact absurd hbin (Nat.not_lt_zero bin)
  | cons b bins ih =>
    have hcons : ∀ (b' : BitVec w) (bins' : List (BitVec w)),
        total (b' :: bins') = b'.toNat + total bins' := fun b' bins' => List.sum_cons
    rw [hcons] at hroom ⊢
    cases bin with
    | zero =>
      have hone : (b + 1).toNat = b.toNat + 1 := by
        have hlt : b.toNat + 1 < 2 ^ w :=
          lt_of_le_of_lt (Nat.succ_le_succ (Nat.le_add_right _ _)) hroom
        have hw : 1 < 2 ^ w := lt_of_le_of_lt (Nat.le_add_left 1 _) hlt
        show (b + BitVec.ofNat w 1).toNat = _
        rw [BitVec.toNat_add, BitVec.toNat_ofNat, Nat.mod_eq_of_lt hw, Nat.mod_eq_of_lt hlt]
      rw [List.modify_zero_cons, hcons, hone]
      omega
    | succ bin =>
      rw [List.modify_succ_cons, hcons, ih (Nat.lt_of_succ_lt_succ hbin) (by omega)]
      omega

theorem Counted.allocated_length {size n : ℕ} {bins : List (BitVec w)} (h : Counted size n bins) :
    (allocated size bins).length = size := by
  cases bins with
  | nil => exact List.length_replicate
  | cons b bins => exact h.allocation.resolve_left (List.cons_ne_nil b bins)

theorem Counted.allocated {size n : ℕ} {bins : List (BitVec w)} (h : Counted size n bins) :
    Counted size n (allocated size bins) := by
  refine ⟨Or.inr h.allocated_length, ?_⟩
  cases bins with
  | nil => exact (total_replicate_zero size).trans h.sum
  | cons b bins => exact h.sum

theorem Counted.up {size n bin : ℕ} {bins : List (BitVec w)} (h : Counted size n bins)
    (hbin : bin < size) (hroom : n + 1 < 2 ^ w) :
    Counted size (n + 1) (increment bin (Counting.allocated size bins)) := by
  have hlength := h.allocated_length
  refine ⟨Or.inr ((List.length_modify _ _ _).trans hlength), ?_⟩
  rw [total_increment (hlength.symm ▸ hbin) (by rw [h.allocated.sum]; exact hroom), h.allocated.sum]

variable {α : Type}

/-- How many elements of a list have a property, given what went before each. -/
def countAlong (p : List α → α → Bool) : List α → List α → ℕ
  | _, [] => 0
  | before, x :: xs => (if p before x then 1 else 0) + countAlong p (before ++ [x]) xs

theorem countAlong_snoc (p : List α → α → Bool) (before xs : List α) (x : α) :
    countAlong p before (xs ++ [x]) =
      countAlong p before xs + if p (before ++ xs) x then 1 else 0 := by
  induction xs generalizing before with
  | nil => simp [countAlong]
  | cons y xs ih =>
    rw [List.cons_append, countAlong, countAlong, ih, List.append_assoc, List.singleton_append,
      Nat.add_assoc]

theorem countAlong_le (p : List α → α → Bool) (before xs : List α) :
    countAlong p before xs ≤ xs.length := by
  induction xs generalizing before with
  | nil => exact Nat.le_refl 0
  | cons x xs ih =>
    rw [countAlong, List.length_cons]
    have hrest := ih (before ++ [x])
    split <;> omega

end Counting
end CaenDaq
