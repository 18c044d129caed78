import CaenDaq.BlockQueue
import CaenDaq.Transition
import Mathlib.Algebra.Order.BigOperators.Group.List
import Mathlib.Algebra.Order.Ring.Nat
import Mathlib.Tactic.Common

/-!
# Calls on the queue from any number of threads

Each critical section of `push`, `pop`, `popFor` and `close` is one step. A call that
finds no room, or no block, lets go of the lock and decides again whenever it is woken
up, for whatever reason.
-/

namespace CaenDaq

/-- Where a thread is: outside the queue or waiting in one of its calls. -/
inductive QueuePc (β : Type)
  | outside
  | pushing (block : β)
  | popping
  | poppingFor

/-- A call that has returned, or closed the queue, and what it gave back. -/
inductive QueueEvent (β : Type)
  | pushed (block : β) (accepted : Bool)
  | popped (block : Option β) (timedOut : Bool)
  | closed

/-- The queue and its callers, with the calls that have been answered so far in the order
of their last critical sections. -/
structure QueueCalls (ι β : Type) where
  queue : BlockQueue β
  pc : ι → QueuePc β := fun _ => .outside
  log : List (QueueEvent β) := []

/-- What a thread does next: enter a call, or wake up inside one, late or not. -/
inductive QueueAction (ι β : Type)
  | push (i : ι) (block : β)
  | pop (i : ι)
  | popFor (i : ι)
  | close (i : ι)
  | wake (i : ι) (late : Bool)

namespace QueueCalls

open Transition

variable {ι β : Type} {size : β → ℕ}

def start (capacity : ℕ) : QueueCalls ι β := { queue := BlockQueue.ofCapacity capacity }

def decidePush [DecidableEq ι] (size : β → ℕ) (i : ι) (block : β) (late : Bool)
    (s : QueueCalls ι β) : QueueCalls ι β :=
  match s.queue.push size late block with
  | (none, q) => { s with queue := q, pc := Function.update s.pc i (.pushing block) }
  | (some accepted, q) =>
    { queue := q, pc := Function.update s.pc i .outside, log := s.log ++ [.pushed block accepted] }

def decidePop [DecidableEq ι] (i : ι) (waiting : QueuePc β) (late : Bool)
    (s : QueueCalls ι β) : QueueCalls ι β :=
  match s.queue.popFor late with
  | (none, q) => { s with queue := q, pc := Function.update s.pc i waiting }
  | (some (block, timedOut), q) =>
    { queue := q, pc := Function.update s.pc i .outside, log := s.log ++ [.popped block timedOut] }

def close (s : QueueCalls ι β) : QueueCalls ι β :=
  { s with queue := s.queue.close, log := s.log ++ [.closed] }

/-- One critical section. Only a thread outside the queue enters a call, and only `push`
and `popFor` give up waiting. -/
def step [DecidableEq ι] (size : β → ℕ) (s : QueueCalls ι β) :
    QueueAction ι β → Option (QueueCalls ι β)
  | .push i block =>
    match s.pc i with
    | .outside => some (s.decidePush size i block false)
    | _ => none
  | .pop i =>
    match s.pc i with
    | .outside => some (s.decidePop i .popping false)
    | _ => none
  | .popFor i =>
    match s.pc i with
    | .outside => some (s.decidePop i .poppingFor false)
    | _ => none
  | .close i =>
    match s.pc i with
    | .outside => some s.close
    | _ => none
  | .wake i late =>
    match s.pc i with
    | .outside => none
    | .pushing block => some (s.decidePush size i block late)
    | .popping => if late then none else some (s.decidePop i .popping false)
    | .poppingFor => some (s.decidePop i .poppingFor late)

def acceptedOf (log : List (QueueEvent β)) : List β :=
  log.filterMap fun
    | .pushed block true => some block
    | _ => none

def poppedOf (log : List (QueueEvent β)) : List β :=
  log.filterMap fun
    | .popped block _ => block
    | _ => none

def refusedOf : List (QueueEvent β) → List β
  | [] => []
  | .closed :: _ => []
  | .pushed block false :: log => block :: refusedOf log
  | _ :: log => refusedOf log

/-- The answer of a call is right for the queue it finds at its decision. -/
def Right (s s' : QueueCalls ι β) : QueueEvent β → Prop
  | .pushed _ accepted =>
    accepted = false ↔ s.queue.closed = true ∨ s.queue.items.length = s.queue.capacity
  | .popped (some block) timedOut => timedOut = false ∧ s.queue.items = block :: s'.queue.items
  | .popped none false => s.queue.closed = true ∧ poppedOf s.log = acceptedOf s.log
  | .popped none true => s'.queue = s.queue
  | .closed => s'.queue.closed = true

structure Invariant (size : β → ℕ) (capacity : ℕ) (s : QueueCalls ι β) : Prop where
  capacity : s.queue.capacity = max capacity 1
  fifo : poppedOf s.log ++ s.queue.items = acceptedOf s.log
  closed : s.queue.closed = true ↔ .closed ∈ s.log
  late : ∀ before after, s.log = before ++ .closed :: after → acceptedOf after = []
  dropped : s.queue.dropped = (refusedOf s.log).length
  bytes : s.queue.droppedBytes = ((refusedOf s.log).map size).sum

theorem acceptedOf_concat (log : List (QueueEvent β)) (e : QueueEvent β) :
    acceptedOf (log ++ [e]) = acceptedOf log ++ acceptedOf [e] := List.filterMap_append

theorem poppedOf_concat (log : List (QueueEvent β)) (e : QueueEvent β) :
    poppedOf (log ++ [e]) = poppedOf log ++ poppedOf [e] := List.filterMap_append

theorem refusedOf_concat (log : List (QueueEvent β)) (e : QueueEvent β) :
    (.closed ∈ log → refusedOf (log ++ [e]) = refusedOf log) ∧
      (.closed ∉ log → refusedOf (log ++ [e]) = refusedOf log ++ refusedOf [e]) := by
  induction log with
  | nil => simp [refusedOf]
  | cons x log ih =>
    cases x with
    | closed => simp [refusedOf]
    | popped block timedOut => simpa [refusedOf] using ih
    | pushed block accepted =>
      cases accepted with
      | true => simpa [refusedOf] using ih
      | false => simpa [refusedOf] using ih

/-- A further event that is no acceptance on a closed queue keeps acceptances before the
close. -/
theorem late_concat {log : List (QueueEvent β)} {e : QueueEvent β}
    (h : ∀ before after, log = before ++ .closed :: after → acceptedOf after = [])
    (he : .closed ∈ log → acceptedOf [e] = []) :
    ∀ before after, log ++ [e] = before ++ .closed :: after → acceptedOf after = [] := by
  intro before after hsplit
  rcases List.eq_nil_or_concat after with rfl | ⟨after, last, rfl⟩
  · rfl
  · rw [List.concat_eq_append, ← List.cons_append, ← List.append_assoc] at hsplit
    obtain ⟨hlog, hlast⟩ := List.append_inj' hsplit rfl
    obtain rfl := (List.cons.inj hlast).1
    rw [List.concat_eq_append, acceptedOf_concat, h before after hlog,
      he (by rw [hlog]; simp), List.append_nil]

/-- A call that has to wait changes nothing but where its thread is. -/
def Waits (s s' : QueueCalls ι β) : Prop := s'.queue = s.queue ∧ s'.log = s.log

/-- A call is answered: rightly, and with what the invariant says still true. -/
def Answers (size : β → ℕ) (capacity : ℕ) (s s' : QueueCalls ι β) : Prop :=
  ∃ e, s'.log = s.log ++ [e] ∧ Right s s' e ∧ Invariant size capacity s'

section Step

variable {capacity : ℕ} {s s' : QueueCalls ι β} {e : QueueEvent β}

/-- What an answer has to do to the queue for the invariant to hold after it. -/
theorem Invariant.answered (hs : Invariant size capacity s) (hlog : s'.log = s.log ++ [e])
    (hcapacity : s'.queue.capacity = s.queue.capacity)
    (hfifo : poppedOf [e] ++ s'.queue.items = s.queue.items ++ acceptedOf [e])
    (hclosed : s'.queue.closed = true ↔ s.queue.closed = true ∨ .closed = e)
    (hlate : s.queue.closed = true → acceptedOf [e] = [])
    (hdropped : s'.queue.dropped =
      s.queue.dropped + (if s.queue.closed then [] else refusedOf [e]).length)
    (hbytes : s'.queue.droppedBytes =
      s.queue.droppedBytes + ((if s.queue.closed then [] else refusedOf [e]).map size).sum) :
    Invariant size capacity s' := by
  have hrefused : refusedOf (s.log ++ [e]) =
      refusedOf s.log ++ if s.queue.closed then [] else refusedOf [e] := by
    by_cases hc : s.queue.closed = true
    · rw [(refusedOf_concat s.log e).1 (hs.closed.mp hc), if_pos hc, List.append_nil]
    · rw [(refusedOf_concat s.log e).2 (fun hin => hc (hs.closed.mpr hin)), if_neg hc]
  refine ⟨hcapacity.trans hs.capacity, ?_, ?_, ?_, ?_, ?_⟩
  · rw [hlog, poppedOf_concat, acceptedOf_concat, ← hs.fifo, List.append_assoc, hfifo,
      List.append_assoc]
  · rw [hclosed, hs.closed, hlog, List.mem_append, List.mem_singleton]
  · rw [hlog]
    exact late_concat hs.late fun hin => hlate (hs.closed.mpr hin)
  · rw [hdropped, hlog, hrefused, List.length_append, hs.dropped]
  · rw [hbytes, hlog, hrefused, List.map_append, List.sum_append, hs.bytes]

theorem decidePush_spec [DecidableEq ι] (hs : Invariant size capacity s) (i : ι) (block : β)
    (late : Bool) :
    Waits s (s.decidePush size i block late) ∨
      Answers size capacity s (s.decidePush size i block late) := by
  rcases BlockQueue.push_spec size late block s.queue with
    h | ⟨hclosed, h⟩ | ⟨hopen, hroom, q, h, hitems, hcl, hcap, hdr, hby⟩ | ⟨hopen, hfull, h⟩
  · left
    simp only [decidePush, h, Waits, and_self]
  · right
    have hlog : (s.decidePush size i block late).log = s.log ++ [.pushed block false] := by
      simp only [decidePush, h]
    refine ⟨_, hlog, by simp [Right, hclosed], hs.answered hlog ?_ ?_ ?_ ?_ ?_ ?_⟩ <;>
    simp [decidePush, h, hclosed, poppedOf, acceptedOf]
  · right
    have hlog : (s.decidePush size i block late).log = s.log ++ [.pushed block true] := by
      simp only [decidePush, h]
    have hne : s.queue.items.length ≠ s.queue.capacity := Nat.ne_of_lt hroom
    refine ⟨_, hlog, by simp [Right, hopen, hne], hs.answered hlog ?_ ?_ ?_ ?_ ?_ ?_⟩ <;>
    simp [decidePush, h, hopen, hitems, hcl, hcap, hdr, hby, poppedOf, acceptedOf, refusedOf]
  · right
    have hlog : (s.decidePush size i block late).log = s.log ++ [.pushed block false] := by
      simp only [decidePush, h]
    refine ⟨_, hlog, by simp [Right, hfull], hs.answered hlog ?_ ?_ ?_ ?_ ?_ ?_⟩ <;>
    simp [decidePush, h, hopen, poppedOf, acceptedOf, refusedOf]

theorem decidePop_spec [DecidableEq ι] (hs : Invariant size capacity s) (i : ι)
    (waiting : QueuePc β) (late : Bool) :
    Waits s (s.decidePop i waiting late) ∨ Answers size capacity s (s.decidePop i waiting late) := by
  rcases BlockQueue.popFor_spec late s.queue with
    h | h | ⟨hclosed, hempty, h⟩ | ⟨block, q, h, hitems, hcl, hcap, hdr, hby⟩
  · left
    simp only [decidePop, h, Waits, and_self]
  · right
    have hlog : (s.decidePop i waiting late).log = s.log ++ [.popped none true] := by
      simp only [decidePop, h]
    refine ⟨_, hlog, by simp only [Right, decidePop, h], hs.answered hlog ?_ ?_ ?_ ?_ ?_ ?_⟩ <;>
    simp [decidePop, h, poppedOf, acceptedOf, refusedOf]
  · right
    have hlog : (s.decidePop i waiting late).log = s.log ++ [.popped none false] := by
      simp only [decidePop, h]
    have hall : poppedOf s.log = acceptedOf s.log := by
      have hfifo := hs.fifo
      rwa [hempty, List.append_nil] at hfifo
    refine ⟨_, hlog, ⟨hclosed, hall⟩, hs.answered hlog ?_ ?_ ?_ ?_ ?_ ?_⟩ <;>
    simp [decidePop, h, poppedOf, acceptedOf, refusedOf]
  · right
    have hlog : (s.decidePop i waiting late).log = s.log ++ [.popped (some block) false] := by
      simp only [decidePop, h]
    refine ⟨_, hlog, by simp [Right, decidePop, h, hitems], hs.answered hlog ?_ ?_ ?_ ?_ ?_ ?_⟩ <;>
    simp [decidePop, h, hitems, hcl, hcap, hdr, hby, poppedOf, acceptedOf, refusedOf]

theorem close_spec (hs : Invariant size capacity s) : Answers size capacity s s.close := by
  refine ⟨.closed, rfl, rfl, hs.answered rfl rfl ?_ ?_ ?_ ?_ ?_⟩ <;>
  simp [close, BlockQueue.close, poppedOf, acceptedOf, refusedOf]

/-- A step waits or answers one call. -/
theorem step_spec [DecidableEq ι] (hs : Invariant size capacity s) {a : QueueAction ι β}
    (h : step size s a = some s') : Waits s s' ∨ Answers size capacity s s' := by
  cases a with
  | push i block =>
    simp only [step] at h
    split at h
    · cases h
      exact decidePush_spec hs i block false
    · cases h
  | pop i =>
    simp only [step] at h
    split at h
    · cases h
      exact decidePop_spec hs i .popping false
    · cases h
  | popFor i =>
    simp only [step] at h
    split at h
    · cases h
      exact decidePop_spec hs i .poppingFor false
    · cases h
  | close i =>
    simp only [step] at h
    split at h
    · cases h
      exact Or.inr (close_spec hs)
    · cases h
  | wake i late =>
    simp only [step] at h
    split at h
    · cases h
    · cases h
      exact decidePush_spec hs i _ late
    · split at h
      · cases h
      · cases h
        exact decidePop_spec hs i .popping false
    · cases h
      exact decidePop_spec hs i .poppingFor late

theorem step_invariant [DecidableEq ι] (hs : Invariant size capacity s) {a : QueueAction ι β}
    (h : step size s a = some s') : Invariant size capacity s' := by
  rcases step_spec hs h with ⟨hqueue, hlog⟩ | ⟨_, _, _, hnext⟩
  · exact ⟨by rw [hqueue, hs.capacity], by rw [hqueue, hlog, hs.fifo],
      by rw [hqueue, hlog, hs.closed], by rw [hlog]; exact hs.late,
      by rw [hqueue, hlog, hs.dropped], by rw [hqueue, hlog, hs.bytes]⟩
  · exact hnext

theorem start_invariant (size : β → ℕ) (capacity : ℕ) :
    Invariant size capacity (start capacity : QueueCalls ι β) := by
  refine ⟨?_, rfl, by simp [start, BlockQueue.ofCapacity], ?_, rfl, rfl⟩
  · show (if capacity = 0 then 1 else capacity) = max capacity 1
    split <;> omega
  · intro before after h
    exact absurd h (by simp [start])

theorem pop_decided [DecidableEq ι] {s s' : QueueCalls ι β} {i : ι}
    (h : step size s (.pop i) = some s' ∨
      s.pc i = .popping ∧ ∃ late, step size s (.wake i late) = some s') :
    s' = s.decidePop i .popping false := by
  rcases h with h | ⟨hpc, late, h⟩
  · simp only [step] at h
    split at h
    · exact (Option.some.inj h).symm
    · cases h
  · simp only [step, hpc] at h
    split at h
    · cases h
    · exact (Option.some.inj h).symm

theorem pop_patient [DecidableEq ι] {s s' : QueueCalls ι β} {i : ι} {block : Option β}
    {timedOut : Bool} (h : step size s (.pop i) = some s' ∨
      s.pc i = .popping ∧ ∃ late, step size s (.wake i late) = some s')
    (hlog : s'.log = s.log ++ [.popped block timedOut]) : timedOut = false := by
  rw [pop_decided h, decidePop] at hlog
  split at hlog
  · exact absurd hlog (by simp)
  · next heq =>
    obtain ⟨rfl, rfl⟩ : _ = block ∧ _ = timedOut := by simpa using hlog
    exact BlockQueue.popFor_false heq

end Step

/-- The queue is bounded and loses nothing it has accepted. After any schedule of calls
from any threads it holds at most its capacity, and what has been handed out followed by
what is held is what was accepted, in that order; nothing is accepted after the close, and
the counters are those of the blocks refused while it was open. In any such state a
critical section leaves its caller waiting or gives it the right answer, and a plain `pop` is
never told that its time is over. -/
theorem blockQueue_fifo [DecidableEq ι] (size : β → ℕ) (capacity : ℕ)
    {as : List (QueueAction ι β)} {s : QueueCalls ι β}
    (hrun : run (step size) (start capacity) as = some s) :
    (s.queue.items.length ≤ s.queue.capacity ∧ s.queue.capacity = max capacity 1) ∧
    poppedOf s.log ++ s.queue.items = acceptedOf s.log ∧
    (s.queue.closed = true ↔ .closed ∈ s.log) ∧
    (∀ before after, s.log = before ++ .closed :: after → acceptedOf after = []) ∧
    (s.queue.dropped = (refusedOf s.log).length ∧
      s.queue.droppedBytes = ((refusedOf s.log).map size).sum) ∧
    (∀ a s', step size s a = some s' →
      (s'.queue = s.queue ∧ s'.log = s.log) ∨ ∃ e, s'.log = s.log ++ [e] ∧ Right s s' e) ∧
    ∀ i s' block timedOut, (step size s (.pop i) = some s' ∨
      s.pc i = .popping ∧ ∃ late, step size s (.wake i late) = some s') →
        s'.log = s.log ++ [.popped block timedOut] → timedOut = false := by
  have hs : Invariant size capacity s :=
    run_invariant (fun _ _ _ _ hP h => step_invariant hP h) (start_invariant size capacity) hrun
  refine ⟨⟨s.queue.bounded, hs.capacity⟩, hs.fifo, hs.closed, hs.late, ⟨hs.dropped, hs.bytes⟩,
    fun a s' h => ?_, fun i s' block timedOut h hlog => pop_patient h hlog⟩
  rcases step_spec hs h with hwait | ⟨e, hlog, hright, _⟩
  · exact Or.inl hwait
  · exact Or.inr ⟨e, hlog, hright⟩

/-- Two producers and a consumer over one place, with a block that waits for room, one
that waits in vain, and a close. -/
def twoProducers : List (QueueAction ℕ (List ℕ)) :=
  [.push 0 [1], .push 1 [2], .popFor 2, .wake 1 false, .push 0 [3, 3], .wake 0 true, .close 3,
    .push 1 [4], .popFor 2, .popFor 2]

theorem blockQueue_fifo_two : ∃ s, run (step List.length) (start 0) twoProducers = some s ∧
    acceptedOf s.log = [[1], [2]] ∧ poppedOf s.log ++ s.queue.items = acceptedOf s.log ∧
    s.queue.dropped = 1 ∧ s.queue.droppedBytes = ((refusedOf s.log).map List.length).sum :=
  have hrun : run (step List.length) (start 0) twoProducers = some _ := rfl
  have hall := blockQueue_fifo List.length 0 hrun
  ⟨_, hrun, rfl, hall.2.1, rfl, hall.2.2.2.2.1.2⟩

end QueueCalls
end CaenDaq
