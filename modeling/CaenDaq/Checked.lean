import Mathlib.Algebra.Order.Ring.Nat
import Mathlib.Data.List.Basic
import Mathlib.Tactic.Common

/-!
# Checked machine arithmetic and windowed reads

Operations on unsigned words of a fixed width that stop with a `Fault` where a
machine would wrap, divide by zero or leave a buffer. A computation that returns
`ok` has done none of these, so totality of a checked program is its memory and
arithmetic safety. Where no fault occurs the values are the machine's own.
-/

namespace CaenDaq
namespace Checked

inductive Fault
  | outOfBounds (index : ℕ)
  | outsideWindow (index : ℕ)
  | wrap
  | divisionByZero
  | outOfFuel
  deriving DecidableEq, Repr

/-- A computation that either yields a value or stops with a fault. -/
abbrev Run (α : Type) := Except Fault α

def add (w a b : ℕ) : Run ℕ := if a + b < 2 ^ w then .ok (a + b) else .error .wrap

def sub (a b : ℕ) : Run ℕ := if b ≤ a then .ok (a - b) else .error .wrap

def mul (w a b : ℕ) : Run ℕ := if a * b < 2 ^ w then .ok (a * b) else .error .wrap

def div (a b : ℕ) : Run ℕ := if b = 0 then .error .divisionByZero else .ok (a / b)

theorem add_ok {w a b : ℕ} (h : a + b < 2 ^ w) : add w a b = .ok (a + b) := if_pos h

theorem sub_ok {a b : ℕ} (h : b ≤ a) : sub a b = .ok (a - b) := if_pos h

theorem mul_ok {w a b : ℕ} (h : a * b < 2 ^ w) : mul w a b = .ok (a * b) := if_pos h

theorem div_ok {a b : ℕ} (h : 0 < b) : div a b = .ok (a / b) := if_neg (by omega)

/-- The conditional expression `c ? r : other`, evaluating `r` only where `c` holds. -/
def select {α : Type} (c : Bool) (r : Run α) (other : α) : Run α := if c then r else .ok other

theorem select_ok {α : Type} {c : Bool} {r : Run α} {other x : α} (h : c = true → r = .ok x) :
    select c r other = .ok (if c then x else other) := by
  cases c with
  | false => rfl
  | true => exact h rfl

@[simp] theorem ok_bind {α β : Type} (a : α) (f : α → Run β) : ((.ok a : Run α) >>= f) = f a := rfl

@[simp] theorem pure_eq_ok {α : Type} (a : α) : (pure a : Run α) = .ok a := rfl

/-- A half-open range of indices that a read has to respect. -/
structure Window where
  lo : ℕ
  hi : ℕ
  deriving DecidableEq, Repr

variable {α : Type}

def read (buf : List α) (i : ℕ) : Run α :=
  match buf[i]? with
  | some x => .ok x
  | none => .error (.outOfBounds i)

/-- Element `i` of a buffer, which must lie in each of the windows as well. -/
def readIn (windows : List Window) (buf : List α) (i : ℕ) : Run α :=
  if ∀ w ∈ windows, w.lo ≤ i ∧ i < w.hi then read buf i else .error (.outsideWindow i)

def readMany (windows : List Window) (buf : List α) (first : ℕ) : ℕ → Run (List α)
  | 0 => pure []
  | n + 1 => do
    let xs ← readMany windows buf first n
    let x ← readIn windows buf (first + n)
    pure (xs ++ [x])

def slice (buf : List α) (lo n : ℕ) : List α := (buf.drop lo).take n

theorem slice_length {buf : List α} {lo n : ℕ} (h : lo + n ≤ buf.length) :
    (slice buf lo n).length = n := by
  simp only [slice, List.length_take, List.length_drop]
  omega

@[simp] theorem slice_zero (buf : List α) (lo : ℕ) : slice buf lo 0 = [] := by simp [slice]

theorem slice_getElem? {buf : List α} {lo n i : ℕ} (h : i < n) :
    (slice buf lo n)[i]? = buf[lo + i]? := by
  simp [slice, h]

theorem slice_slice {buf : List α} {lo n a k : ℕ} (h : a + k ≤ n) :
    slice (slice buf lo n) a k = slice buf (lo + a) k := by
  simp only [slice, List.drop_take, List.take_take, List.drop_drop]
  congr 1
  omega

theorem drop_slice {buf : List α} {lo n a : ℕ} :
    (slice buf lo n).drop a = slice buf (lo + a) (n - a) := by
  simp only [slice, List.drop_take, List.drop_drop]

theorem take_slice {buf : List α} {lo n k : ℕ} (h : k ≤ n) :
    (slice buf lo n).take k = slice buf lo k := by
  simp only [slice, List.take_take]
  congr 1
  omega

theorem slice_cons {buf : List α} {lo n : ℕ} {x : α} (h : buf[lo]? = some x) :
    slice buf lo (n + 1) = x :: slice buf (lo + 1) n := by
  obtain ⟨hlt, he⟩ := List.getElem?_eq_some_iff.mp h
  rw [slice, List.drop_eq_getElem_cons hlt, List.take_succ_cons, he, slice]

theorem slice_succ {buf : List α} {lo n : ℕ} {x : α} (h : buf[lo + n]? = some x) :
    slice buf lo (n + 1) = slice buf lo n ++ [x] := by
  have hx : (buf.drop lo)[n]? = some x := by simpa using h
  simp only [slice, List.take_add_one, hx, Option.toList_some]

theorem read_ok {buf : List α} {i : ℕ} {x : α} (h : buf[i]? = some x) : read buf i = .ok x := by
  simp [read, h]

theorem readIn_ok {windows : List Window} {buf : List α} {i : ℕ} {x : α}
    (hw : ∀ w ∈ windows, w.lo ≤ i ∧ i < w.hi) (h : buf[i]? = some x) :
    readIn windows buf i = .ok x := by
  rw [readIn, if_pos hw, read_ok h]

/-- A run of reads inside the buffer and inside every window yields the slice. -/
theorem readMany_ok {windows : List Window} {buf : List α} {first n : ℕ}
    (hw : ∀ w ∈ windows, w.lo ≤ first ∧ first + n ≤ w.hi) (hb : first + n ≤ buf.length) :
    readMany windows buf first n = .ok (slice buf first n) := by
  induction n with
  | zero => simp [readMany]
  | succ n ih =>
    have hlast : buf[first + n]? = some buf[first + n] := List.getElem?_eq_getElem (by omega)
    have hprev : readMany windows buf first n = .ok (slice buf first n) :=
      ih (fun w hm => ⟨(hw w hm).1, by have := (hw w hm).2; omega⟩) (by omega)
    have hread : readIn windows buf (first + n) = .ok buf[first + n] :=
      readIn_ok (fun w hm => ⟨by have := (hw w hm).1; omega, by have := (hw w hm).2; omega⟩) hlast
    rw [readMany, hprev, ok_bind, hread, ok_bind, pure_eq_ok, slice_succ hlast]

end Checked
end CaenDaq
