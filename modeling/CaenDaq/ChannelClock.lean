import Mathlib.Algebra.Order.Ring.Nat
import Mathlib.Data.List.Range
import Mathlib.Tactic.Common

/-!
# Unwrapping a board's time-stamp counter

`AggregateDecoder::unwrap` places a raw counter value in the epoch that puts it
closest to where the board already is. Tick counts are 64-bit: sums wrap there.
The epoch advances by at most one for each event and is kept as a natural number.
-/

namespace CaenDaq

/-- Time line of one board. -/
structure ChannelClock where
  epoch : ℕ := 0
  reference : ℕ := 0
  seen : Bool := false
  deriving DecidableEq, Repr

namespace ChannelClock

def place (raw range cand : ℕ) : ℕ := (raw + cand * range) % 2 ^ 64

def distance (f reference : ℕ) : ℕ := if f > reference then f - reference else reference - f

/-- The epochs tried: the current one and its two neighbours, none before the first event. -/
def candidates (c : ChannelClock) : List ℕ :=
  let lowest := if c.epoch > 0 then c.epoch - 1 else 0
  if c.seen then List.range' lowest (c.epoch + 2 - lowest) else []

def improve (c : ChannelClock) (raw range : ℕ) (b : ℕ × ℕ) (cand : ℕ) : ℕ × ℕ :=
  let d := distance (place raw range cand) c.reference
  if d < b.2 then (cand, d) else b

def best (c : ChannelClock) (raw range : ℕ) : ℕ :=
  ((candidates c).foldl (improve c raw range) (c.epoch, 2 ^ 64 - 1)).1

/-- The tick count of a raw counter value of the given width, and the clock after it. -/
def unwrap (c : ChannelClock) (raw width : ℕ) : ℕ × ChannelClock :=
  let range := if 64 ≤ width then 0 else 2 ^ width
  let cand := best c raw range
  let full := if range ≠ 0 then place raw range cand else raw
  let epoch := if range ≠ 0 ∧ cand > c.epoch then cand else c.epoch
  (full, { epoch := epoch, reference := if full > c.reference then full else c.reference
           seen := true })

variable {c : ChannelClock} {raw range : ℕ}

theorem mem_candidates {e : ℕ} :
    e ∈ candidates c ↔ c.seen = true ∧ c.epoch ≤ e + 1 ∧ e ≤ c.epoch + 1 := by
  simp only [candidates]
  cases hs : c.seen with
  | false => simp
  | true =>
    rw [if_pos rfl, List.mem_range'_1]
    constructor
    · intro h
      refine ⟨rfl, ?_⟩
      split at h <;> omega
    · intro h
      split <;> omega

/-- What the search over some candidates knows about its result: it is no worse than
where it started nor than any of them, and it is one of them unless it stayed. -/
theorem foldl_improve (cs : List ℕ) (b : ℕ × ℕ) :
    (cs.foldl (improve c raw range) b).2 ≤ b.2 ∧
    (∀ e ∈ cs, (cs.foldl (improve c raw range) b).2 ≤
      distance (place raw range e) c.reference) ∧
    (cs.foldl (improve c raw range) b = b ∨
      (cs.foldl (improve c raw range) b).1 ∈ cs ∧
      (cs.foldl (improve c raw range) b).2 =
        distance (place raw range (cs.foldl (improve c raw range) b).1) c.reference) := by
  induction cs generalizing b with
  | nil => simp
  | cons e cs ih =>
    obtain ⟨hle, hall, hmem⟩ := ih (improve c raw range b e)
    have hstep : (improve c raw range b e).2 ≤ b.2 ∧
        (improve c raw range b e).2 ≤ distance (place raw range e) c.reference := by
      simp only [improve]
      split
      · rename_i h
        exact ⟨Nat.le_of_lt h, Nat.le_refl _⟩
      · omega
    rw [List.foldl_cons]
    refine ⟨hle.trans hstep.1, ?_, ?_⟩
    · intro x hx
      rcases List.mem_cons.mp hx with rfl | hx
      · exact hle.trans hstep.2
      · exact hall x hx
    · rcases hmem with hstay | ⟨hin, hdist⟩
      · rw [hstay]
        by_cases hd : distance (place raw range e) c.reference < b.2
        · right
          simp [improve, hd]
        · left
          simp [improve, hd]
      · exact Or.inr ⟨List.mem_cons_of_mem _ hin, hdist⟩

/-- If some candidate lies closer than a bound, so does the epoch that is chosen, and
it is a candidate. -/
theorem best_near {e bound : ℕ} (he : e ∈ candidates c)
    (hd : distance (place raw range e) c.reference < bound) (hb : bound ≤ 2 ^ 64 - 1) :
    best c raw range ∈ candidates c ∧
      distance (place raw range (best c raw range)) c.reference < bound := by
  obtain ⟨_, hall, hmem⟩ := @foldl_improve c raw range (candidates c) (c.epoch, 2 ^ 64 - 1)
  have hlt := lt_of_le_of_lt (hall e he) hd
  rcases hmem with hstay | ⟨hin, hdist⟩
  · rw [hstay] at hlt
    exact absurd hlt (Nat.not_lt.mpr hb)
  · rw [hdist] at hlt
    exact ⟨hin, hlt⟩

/-- The chosen epoch is the current one or a neighbour. -/
theorem best_neighbour (c : ChannelClock) (raw range : ℕ) :
    c.epoch ≤ best c raw range + 1 ∧ best c raw range ≤ c.epoch + 1 := by
  obtain ⟨_, _, hmem⟩ := @foldl_improve c raw range (candidates c) (c.epoch, 2 ^ 64 - 1)
  rcases hmem with hstay | ⟨hin, _⟩
  · rw [best, hstay]
    exact ⟨Nat.le_succ _, Nat.le_succ _⟩
  · exact (mem_candidates.mp hin).2

/-- After an event the clock has seen one, and its reference is the largest tick so far. -/
theorem unwrap_reference (c : ChannelClock) (raw width : ℕ) :
    (c.unwrap raw width).2.seen = true ∧
      (c.unwrap raw width).2.reference = max c.reference (c.unwrap raw width).1 := by
  refine ⟨rfl, ?_⟩
  show (if (c.unwrap raw width).1 > c.reference then (c.unwrap raw width).1 else c.reference) = _
  split <;> omega

end ChannelClock
end CaenDaq
