import Mathlib.Data.List.Basic

/-!
# The bounded queue

`BlockQueue` of the source. A call that has to wait is entered again when it is woken
up, until it has an answer; whether its time is over by then is an argument.
-/

namespace CaenDaq

structure BlockQueue (β : Type) where
  capacity : ℕ
  items : List β := []
  closed : Bool := false
  dropped : ℕ := 0
  droppedBytes : ℕ := 0
  bounded : items.length ≤ capacity
  deriving DecidableEq, Repr

namespace BlockQueue

variable {β : Type}

/-- A queue as it is constructed. A capacity of zero is taken for one. -/
def ofCapacity (capacity : ℕ) : BlockQueue β :=
  { capacity := if capacity = 0 then 1 else capacity, bounded := Nat.zero_le _ }

/-- `push`: no answer as long as the caller has to wait for room. -/
def push (size : β → ℕ) (timedOut : Bool) (block : β) (q : BlockQueue β) :
    Option Bool × BlockQueue β :=
  if q.closed then (some false, q)
  else if h : q.items.length < q.capacity then
    (some true, { q with
      items := q.items ++ [block], bounded := by rw [List.length_append]; exact h })
  else if timedOut then
    (some false, { q with dropped := q.dropped + 1, droppedBytes := q.droppedBytes + size block })
  else (none, q)

/-- `popFor`, when there is a block. -/
def pop (q : BlockQueue β) : Option (β × BlockQueue β) :=
  match h : q.items with
  | [] => none
  | block :: rest =>
    some (block, { q with
      items := rest
      bounded := Nat.le_of_succ_le (by
        have hbounded := q.bounded
        rwa [h, List.length_cons] at hbounded) })

/-- `popFor` up to its answer: the block and `timedOut`, or nothing yet as long as the
caller has to wait for a block. `pop` is never late and has no use for the flag. -/
def popFor (late : Bool) (q : BlockQueue β) : Option (Option β × Bool) × BlockQueue β :=
  if q.closed || !q.items.isEmpty then
    match pop q with
    | none => (some (none, false), q)
    | some (block, q') => (some (some block, false), q')
  else if late then (some (none, true), q)
  else (none, q)

def drained (q : BlockQueue β) : Bool := q.closed && q.items.isEmpty

def close (q : BlockQueue β) : BlockQueue β := { q with closed := true }

/-- What a push can do: it enters the block at the end or leaves the queue's blocks as
they are, and only a push that enters its block says so. -/
theorem push_cases (size : β → ℕ) (timedOut : Bool) (block : β) (q : BlockQueue β) :
    (push size timedOut block q).2.closed = q.closed ∧
      (((push size timedOut block q).1 = some true ∧ q.closed = false ∧
          (push size timedOut block q).2.items = q.items ++ [block]) ∨
        ((push size timedOut block q).1 ≠ some true ∧
          (push size timedOut block q).2.items = q.items)) := by
  unfold push
  split
  · exact ⟨rfl, .inr ⟨by simp, rfl⟩⟩
  · next hclosed =>
    split
    · exact ⟨rfl, .inl ⟨rfl, eq_false_of_ne_true hclosed, rfl⟩⟩
    · split <;> exact ⟨rfl, .inr ⟨by simp, rfl⟩⟩

variable {block : β} {q q' : BlockQueue β}

theorem pop_some (h : pop q = some (block, q')) :
    q.items = block :: q'.items ∧ q'.closed = q.closed := by
  unfold pop at h
  split at h
  · cases h
  · next heq =>
    obtain ⟨rfl, rfl⟩ := Prod.mk.inj (Option.some.inj h)
    exact ⟨heq, rfl⟩

theorem pop_kept (h : pop q = some (block, q')) :
    q'.capacity = q.capacity ∧ q'.dropped = q.dropped ∧ q'.droppedBytes = q.droppedBytes := by
  unfold pop at h
  split at h
  · cases h
  · obtain ⟨_, rfl⟩ := Prod.mk.inj (Option.some.inj h)
    exact ⟨rfl, rfl, rfl⟩

theorem pop_none (h : pop q = none) : q.items = [] := by
  unfold pop at h
  split at h
  · next hempty => exact hempty
  · cases h

theorem push_late (size : β → ℕ) (block : β) (q : BlockQueue β) :
    (push size true block q).1 ≠ none := by
  unfold push
  split
  · exact Option.some_ne_none _
  · split
    · exact Option.some_ne_none _
    · exact Option.some_ne_none _

theorem popFor_false {b : Option β} {timedOut : Bool}
    (h : popFor false q = (some (b, timedOut), q')) : timedOut = false := by
  unfold popFor at h
  split at h
  · split at h <;> cases h <;> rfl
  · cases h

/-- `push` by its four ways out: it waits, takes the block in, finds the queue closed, or
gives up on a full one and counts that. -/
theorem push_spec (size : β → ℕ) (timedOut : Bool) (block : β) (q : BlockQueue β) :
    push size timedOut block q = (none, q) ∨
      (q.closed = true ∧ push size timedOut block q = (some false, q)) ∨
      (q.closed = false ∧ q.items.length < q.capacity ∧ ∃ q',
        push size timedOut block q = (some true, q') ∧ q'.items = q.items ++ [block] ∧
          q'.closed = q.closed ∧ q'.capacity = q.capacity ∧ q'.dropped = q.dropped ∧
          q'.droppedBytes = q.droppedBytes) ∨
      (q.closed = false ∧ q.items.length = q.capacity ∧
        push size timedOut block q = (some false, { q with
          dropped := q.dropped + 1, droppedBytes := q.droppedBytes + size block })) := by
  unfold push
  split
  · next hclosed => exact Or.inr (Or.inl ⟨hclosed, rfl⟩)
  · next hopen =>
    have hopen := eq_false_of_ne_true hopen
    split
    · next hroom => exact Or.inr (Or.inr (Or.inl ⟨hopen, hroom, _, rfl, rfl, rfl, rfl, rfl, rfl⟩))
    · next hfull =>
      have hfull := Nat.le_antisymm q.bounded (Nat.le_of_not_lt hfull)
      split
      · exact Or.inr (Or.inr (Or.inr ⟨hopen, hfull, rfl⟩))
      · exact Or.inl rfl

/-- `popFor` by its ways out: it waits, gives up waiting, finds the queue closed and
drained, or takes the first block. -/
theorem popFor_spec (late : Bool) (q : BlockQueue β) :
    popFor late q = (none, q) ∨ popFor late q = (some (none, true), q) ∨
      (q.closed = true ∧ q.items = [] ∧ popFor late q = (some (none, false), q)) ∨
      ∃ block q', popFor late q = (some (some block, false), q') ∧ q.items = block :: q'.items ∧
        q'.closed = q.closed ∧ q'.capacity = q.capacity ∧ q'.dropped = q.dropped ∧
        q'.droppedBytes = q.droppedBytes := by
  unfold popFor
  split
  · next hready =>
    split
    · next hnone =>
      have hempty := pop_none hnone
      have hclosed : q.closed = true := by
        rw [hempty, List.isEmpty_nil] at hready
        simpa using hready
      exact Or.inr (Or.inr (Or.inl ⟨hclosed, hempty, rfl⟩))
    · next block q' hsome =>
      obtain ⟨hitems, hclosed⟩ := pop_some hsome
      obtain ⟨hcapacity, hdropped, hbytes⟩ := pop_kept hsome
      exact Or.inr (Or.inr (Or.inr
        ⟨block, q', rfl, hitems, hclosed, hcapacity, hdropped, hbytes⟩))
  · split
    · exact Or.inr (Or.inl rfl)
    · exact Or.inl rfl

end BlockQueue
end CaenDaq
