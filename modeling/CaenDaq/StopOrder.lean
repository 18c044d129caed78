import CaenDaq.Delivery
import CaenDaq.ReadoutSteps

/-!
# The order of the stop

`Daq::stop` goes through the boards one by one: it tells a board to stop, waits for its
reader, reads the board out and goes on. What of this no step of any thread undoes.
-/

namespace CaenDaq
namespace StopOrder

open Readout Delivery

variable {n : ℕ} {cfg : WriterConfig}

def Drained (s : Readout n) (i : Fin n) : Prop :=
  (s.readers i).pc = .returned ∧ (Passed i s.stopPc ∨ ∃ reads, s.stopPc = .draining i reads)

theorem step_drained {s s' : Readout n} {a : Action n} {i : Fin n} (h : Drained s i)
    (hstep : s.step cfg a = some s') : Drained s' i := by
  obtain ⟨hpc, hstop⟩ := h
  have hset : ∀ {j : Fin n} {r : Reader}, (s.readers j).pc ≠ .returned →
      ((s.setReader j r).readers i).pc = .returned := by
    intro j r hj
    rw [readers_setReader, if_neg]
    · exact hpc
    · rintro rfl
      exact hj hpc
  cases step_takes hstep with
  | check j hj => exact ⟨hset (by rw [hj]; nofun), hstop⟩
  | read j answer hj => exact ⟨hset (by rw [hj]; nofun), hstop⟩
  | waited => exact ⟨hpc, hstop⟩
  | pushed j timedOut block accepted q hj => exact ⟨hset (by rw [hj]; nofun), hstop⟩
  | count j block accepted hj => exact ⟨hset (by rw [hj]; nofun), hstop⟩
  | stopBoard j hat =>
    have hpast : (i : ℕ) < j := by
      rcases hstop with hstop | ⟨_, hstop⟩
      · rwa [hat] at hstop
      · cases hat.symm.trans hstop
    refine ⟨?_, .inl hpast⟩
    show ((s.setReader j _).readers i).pc = .returned
    rw [readers_setReader, if_neg fun heq => absurd hpast (by rw [heq]; exact Nat.lt_irrefl _)]
    exact hpc
  | skipBoard j hat =>
    refine ⟨hpc, .inl ?_⟩
    rcases hstop with hstop | ⟨_, hstop⟩
    · rw [hat] at hstop
      exact Nat.lt_succ_of_lt hstop
    · cases hat.symm.trans hstop
  | closeQueue => exact ⟨hpc, .inl trivial⟩
  | join j hat =>
    have hpast : (i : ℕ) < j := by
      rcases hstop with hstop | ⟨_, hstop⟩
      · rwa [hat] at hstop
      · cases hat.symm.trans hstop
    refine ⟨?_, .inl hpast⟩
    show ((s.setReader j _).readers i).pc = .returned
    rw [readers_setReader, if_neg fun heq => absurd hpast (by rw [heq]; exact Nat.lt_irrefl _)]
    exact hpc
  | drainMore j reads late hat hj =>
    refine ⟨hset (by rw [hj]; nofun), ?_⟩
    rcases hstop with hstop | ⟨_, hstop⟩
    · rw [hat] at hstop
      exact .inl hstop
    · obtain ⟨hsame, _⟩ := StopPc.draining.inj (hat.symm.trans hstop)
      exact .inr ⟨reads + 1, congrArg (StopPc.draining · (reads + 1)) hsame⟩
  | drainDone j reads late hat hj => exact ⟨hset (by rw [hj]; nofun), hstop⟩
  | release j reads hat =>
    refine ⟨hpc, .inl ?_⟩
    rcases hstop with hstop | ⟨_, hstop⟩
    · rw [hat] at hstop
      exact Nat.lt_succ_of_lt hstop
    · obtain ⟨hsame, _⟩ := StopPc.draining.inj (hat.symm.trans hstop)
      show (i : ℕ) < j + 1
      omega
  | joinWriter => exact ⟨hpc, .inl trivial⟩
  | pop => exact ⟨hpc, hstop⟩
  | write => exact ⟨hpc, hstop⟩
  | idle => exact ⟨hpc, hstop⟩
  | writerReturn => exact ⟨hpc, hstop⟩
  | stop hat =>
    rcases hstop with hstop | ⟨_, hstop⟩
    · rw [hat] at hstop
      exact hstop.elim
    · cases hat.symm.trans hstop

theorem step_running {s s' : Readout n} {a : Action n} (hstep : s.step cfg a = some s')
    (i : Fin n) :
    (s'.readers i).running = (s.readers i).running ∨
      (s'.stopPc = .joining i ∧ (s'.readers i).running = false) := by
  have hset : ∀ {j : Fin n} {r : Reader}, r.running = (s.readers j).running →
      ((s.setReader j r).readers i).running = (s.readers i).running := by
    intro j r hr
    rw [readers_setReader]
    split
    · next heq => rw [hr, heq]
    · rfl
  cases step_takes hstep with
  | check j => exact .inl (hset rfl)
  | read j answer =>
    refine .inl (hset ?_)
    rcases read_either (s.isDraining j) answer (s.readers j) with hr | hr
    · rw [hr]
      unfold Reader.readLoop
      split
      · rfl
      · split <;> rfl
    · rw [hr]
      unfold Reader.readDrain
      split
      · rfl
      · split <;> rfl
  | pushed j timedOut block accepted q hpc =>
    have hsame := hset (j := j) (r := { s.readers j with
      pc := .counting block accepted, fates := (s.readers j).fates ++ [(block, accepted)] }) rfl
    exact .inl hsame
  | count j block accepted =>
    refine .inl (hset ?_)
    cases accepted <;> rfl
  | stopBoard j =>
    by_cases hj : i = j
    · refine .inr ⟨by rw [hj], ?_⟩
      show ((s.setReader j _).readers i).running = false
      rw [readers_setReader, if_pos hj]
    · left
      show ((s.setReader j _).readers i).running = _
      rw [readers_setReader, if_neg hj]
  | join j =>
    have hsame := hset (j := j) (r := { s.readers j with pc := .checking }) rfl
    exact .inl hsame
  | drainMore j =>
    have hsame := hset (j := j) (r := { s.readers j with pc := .reading }) rfl
    exact .inl hsame
  | drainDone j => exact .inl (hset rfl)
  | _ => exact .inl rfl

theorem told_kept {s s' : Readout n} {a : Action n} {i : ℕ} (h : Told i s.stopPc)
    (hstep : s.step cfg a = some s') : Told i s'.stopPc := by
  cases step_takes hstep with
  | stopBoard j hat =>
    rw [hat] at h
    exact Nat.le_of_lt h
  | skipBoard j hat =>
    rw [hat] at h
    exact Nat.lt_succ_of_lt h
  | closeQueue => trivial
  | join j hat => rwa [hat] at h
  | drainMore j reads late hat => rwa [hat] at h
  | release j reads hat =>
    rw [hat] at h
    exact Nat.lt_succ_of_le h
  | joinWriter => trivial
  | stop hat =>
    rw [hat] at h
    exact h.elim
  | _ => exact h

theorem called_kept {s s' : Readout n} {a : Action n} (h : s.stopPc ≠ .notCalled)
    (hstep : s.step cfg a = some s') : s'.stopPc ≠ .notCalled := by
  cases step_takes hstep with
  | stop => exact StopPc.noConfusion
  | stopBoard => exact StopPc.noConfusion
  | skipBoard => exact StopPc.noConfusion
  | closeQueue => exact StopPc.noConfusion
  | join => exact StopPc.noConfusion
  | drainMore => exact StopPc.noConfusion
  | release => exact StopPc.noConfusion
  | joinWriter => exact StopPc.noConfusion
  | _ => exact h

theorem stopped_kept {s s' : Readout n} {a : Action n} (h : s.stopPc = .stopped)
    (hstep : s.step cfg a = some s') : s'.stopPc = .stopped := by
  cases step_takes hstep with
  | stop hat => cases hat.symm.trans h
  | stopBoard i hat => cases hat.symm.trans h
  | skipBoard i hat => cases hat.symm.trans h
  | closeQueue i hat => cases hat.symm.trans h
  | join i hat => cases hat.symm.trans h
  | drainMore i reads late hat => cases hat.symm.trans h
  | release i reads hat => cases hat.symm.trans h
  | joinWriter => rfl
  | _ => exact h

/-- A board that ran is told to stop before the stopping thread is past it. -/
def Upright (s : Readout n) (i : Fin n) : Prop :=
  ¬Told i s.stopPc → (s.readers i).running = true

theorem step_upright {s s' : Readout n} {a : Action n} {i : Fin n} (h : Upright s i)
    (hstep : s.step cfg a = some s') : Upright s' i := by
  intro hnot
  rcases step_running hstep i with hsame | ⟨hat, _⟩
  · rw [hsame]
    exact h fun htold => hnot (told_kept htold hstep)
  · exact absurd (show Told i s'.stopPc by rw [hat]; exact Nat.le_refl _) hnot

theorem step_passes {s s' : Readout n} {a : Action n} {i : Fin n} (h : Upright s i)
    (hstep : s.step cfg a = some s') (hpassed : Passed i s'.stopPc) :
    Passed i s.stopPc ∨ (a = .release ∧ ∃ reads, s.stopPc = .draining i reads) := by
  cases step_takes hstep with
  | stopBoard j hat => exact .inl (by rwa [hat])
  | skipBoard j hat hrunning =>
    left
    rw [hat]
    refine Nat.lt_of_le_of_ne (Nat.le_of_lt_succ hpassed) fun heq => ?_
    have hup := h (by rw [hat, ← heq]; exact Nat.lt_irrefl _)
    rw [Fin.ext heq, hrunning] at hup
    cases hup
  | closeQueue j hat hlast =>
    left
    rw [hat]
    exact Nat.lt_of_lt_of_le i.isLt hlast
  | join j hat => exact .inl (by rwa [hat])
  | drainMore j reads late hat => exact .inl (by rwa [hat])
  | release j reads hat =>
    rcases Nat.lt_or_eq_of_le (Nat.le_of_lt_succ hpassed) with hless | heq
    · exact .inl (by rwa [hat])
    · exact .inr ⟨rfl, reads, by rw [hat, heq]⟩
  | joinWriter flush close hat => exact .inl (by rw [hat]; trivial)
  | stop => exact absurd hpassed (Nat.not_lt_zero _)
  | _ => exact .inl hpassed

/-- Where the stopping thread is, the threads that it is done with are. -/
structure Standing (s : Readout n) : Prop where
  joining : ∀ j, s.stopPc = .joining j → ∃ i : Fin n, j = i ∧ (s.readers i).running = false
  draining : ∀ j reads, s.stopPc = .draining j reads → j < n
  passed : ∀ i : Fin n, Passed i s.stopPc → (s.readers i).pc = .returned
  closed : s.stopPc = .joiningWriter → s.queue.closed = true
  ended : s.stopPc = .stopped → s.writerPc = .returned

theorem ofDaq_standing (d : Daq) : Standing (.ofDaq d) where
  joining _ h := by cases h
  draining _ _ h := by cases h
  passed _ h := h.elim
  closed h := by cases h
  ended h := by cases h

theorem step_standing {s s' : Readout n} {a : Action n} (hup : ∀ i, Upright s i) (h : Standing s)
    (hstep : s.step cfg a = some s') : Standing s' := by
  have hpassed : ∀ i : Fin n, Passed i s'.stopPc → (s'.readers i).pc = .returned := by
    intro i hp
    have hdrained : Drained s i := by
      rcases step_passes (hup i) hstep hp with hbefore | ⟨rfl, reads, hat⟩
      · exact ⟨h.passed i hbefore, .inl hbefore⟩
      · refine ⟨?_, .inr ⟨reads, hat⟩⟩
        cases step_takes hstep with
        | release j _ hat' hreturned =>
          obtain ⟨hsame, _⟩ := StopPc.draining.inj (hat.symm.trans hat')
          rw [Fin.ext hsame]
          exact hreturned
    exact (step_drained hdrained hstep).1
  have hjoining : s'.stopPc = s.stopPc → ∀ j, s'.stopPc = .joining j →
      ∃ i : Fin n, j = i ∧ (s'.readers i).running = false := by
    intro hsame j hat
    obtain ⟨i, hi, hrunning⟩ := h.joining j (hsame.symm.trans hat)
    rcases step_running hstep i with hkept | ⟨_, hoff⟩
    · exact ⟨i, hi, hkept.trans hrunning⟩
    · exact ⟨i, hi, hoff⟩
  have hstill : s'.stopPc = s.stopPc → s'.queue.closed = s.queue.closed →
      (s.writerPc = .returned → s'.writerPc = .returned) → Standing s' :=
    fun hsame hqueue hwriter =>
      ⟨hjoining hsame, fun j reads hat => h.draining j reads (hsame.symm.trans hat), hpassed,
        fun hat => hqueue.trans (h.closed (hsame.symm.trans hat)),
        fun hat => hwriter (h.ended (hsame.symm.trans hat))⟩
  cases step_takes hstep with
  | pushed i timedOut block accepted q hpc hanswer =>
    refine hstill rfl ?_ id
    have hclosed :=
      (BlockQueue.push_cases (fun b => b.2.length) timedOut (i, block) s.queue).1
    rw [hanswer] at hclosed
    exact hclosed
  | pop block q hpc hpop =>
    exact hstill rfl (BlockQueue.pop_some hpop).2 fun hreturned => nomatch hpc.symm.trans hreturned
  | write turn block hpc =>
    exact hstill rfl rfl fun hreturned => nomatch hpc.symm.trans hreturned
  | writerReturn => exact hstill rfl rfl fun _ => rfl
  | stop => exact ⟨nofun, nofun, hpassed, nofun, nofun⟩
  | stopBoard i =>
    refine ⟨fun j hat => ⟨i, (StopPc.joining.inj hat).symm, ?_⟩, nofun, hpassed, nofun, nofun⟩
    show ((s.setReader i _).readers i).running = false
    rw [readers_setReader, if_pos rfl]
  | skipBoard => exact ⟨nofun, nofun, hpassed, nofun, nofun⟩
  | closeQueue => exact ⟨nofun, nofun, hpassed, fun _ => rfl, nofun⟩
  | join i =>
    refine ⟨nofun, fun j reads hat => ?_, hpassed, nofun, nofun⟩
    rw [← (StopPc.draining.inj hat).1]
    exact i.isLt
  | drainMore i =>
    refine ⟨nofun, fun j reads hat => ?_, hpassed, nofun, nofun⟩
    rw [← (StopPc.draining.inj hat).1]
    exact i.isLt
  | release => exact ⟨nofun, nofun, hpassed, nofun, nofun⟩
  | joinWriter flush close hpc hreturned => exact ⟨nofun, nofun, hpassed, nofun, fun _ => hreturned⟩
  | _ => exact hstill rfl rfl id

end StopOrder
end CaenDaq
