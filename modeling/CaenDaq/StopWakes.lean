import CaenDaq.TickInFlight

/-!
# The stop of the statistics loop

`stop` clears `running_` and notifies without the mutex. Between the last look of the loop
at `running_` and its going to sleep there is nobody to notify yet; a stop that notifies
at any other moment finds the loop awake, or wakes it.
-/

namespace CaenDaq
namespace StopWakes

open StatsCollector Transition TickInFlight

variable {ι : Type}

/-- `stop` has notified, and the loop sleeps on with no wake-up pending. -/
def Missed (s : StatsCollector ι) : Prop :=
  (∃ i, s.caller i = .joining) ∧ s.running = false ∧ s.loop = .asleep false

/-- The loop has found nothing to stay awake for and is about to sleep. -/
def dozing (s : StatsCollector ι) : Bool :=
  match s.loop with
  | .checkingGen false => s.intervalGen % 2 ^ 32 = s.gen % 2 ^ 32
  | .releasing => true
  | _ => false

/-- The condition on a step: `stop` does not notify a loop that is about to sleep. -/
def Heard (s : StatsCollector ι) : StatsAction ι → Prop
  | .caller i => s.caller i = .stopping → dozing s = false
  | _ => True

instance (s : StatsCollector ι) : ∀ a, Decidable (Heard s a)
  | .caller i => inferInstanceAs (Decidable (s.caller i = .stopping → dozing s = false))
  | .loop | .wake _ | .setInterval _ _ | .stop _ => inferInstanceAs (Decidable True)

def Awake (s : StatsCollector ι) : Prop := dozing s = false ∧ s.loop ≠ .asleep false

/-- Once `stop` has notified, the loop is awake and finds `running_` cleared. -/
structure Woken (s : StatsCollector ι) : Prop where
  exclusive : Exclusive s
  cleared : ∀ i, s.caller i = .stopping ∨ s.caller i = .joining → s.running = false
  awake : (∃ i, s.caller i = .joining) → Awake s

theorem woken_start (intervalMs firstIntervalMs : ℤ) :
    Woken (start intervalMs firstIntervalMs : StatsCollector ι) := by
  refine ⟨exclusive_start intervalMs firstIntervalMs, fun i h => ?_, fun ⟨i, h⟩ => ?_⟩
  · rcases h with h | h <;> cases h
  · cases h

theorem Woken.not_missed {s : StatsCollector ι} (h : Woken s) : ¬Missed s :=
  fun ⟨hjoining, _, hasleep⟩ => (h.awake hjoining).2 hasleep

section Steps

variable {s s' : StatsCollector ι}

theorem dozing_locked (h : dozing s = true) : loopLocked s.loop = true := by
  unfold dozing at h
  split at h
  · rename_i hpc
    rw [hpc]
    rfl
  · rename_i hpc
    rw [hpc]
    rfl
  · exact absurd h Bool.false_ne_true

/-- Where the loop does not need the mutex, and where it has yet to look at `running_`, it
is awake unless it sleeps. -/
theorem awake_of_pc (hdoze : ∀ late, s.loop ≠ .checkingGen late) (hrelease : s.loop ≠ .releasing)
    (hasleep : s.loop ≠ .asleep false) : Awake s := by
  refine ⟨?_, hasleep⟩
  unfold dozing
  split
  · rename_i hpc
    exact absurd hpc (hdoze false)
  · rename_i hpc
    exact absurd hpc hrelease
  · rfl

/-- The loop leaves `running_` and the callers alone. -/
theorem loopStep_keeps (hstep : StatsCollector.loopStep s = some s') :
    s'.caller = s.caller ∧ s'.running = s.running := by
  cases hpc : s.loop with
  | locking =>
    simp only [StatsCollector.loopStep, hpc] at hstep
    cases hfree : s.cvMtx with
    | none =>
      simp only [hfree, Option.some.injEq] at hstep
      obtain rfl := hstep
      exact ⟨rfl, rfl⟩
    | some holder => simp [hfree] at hstep
  | relocking late =>
    simp only [StatsCollector.loopStep, hpc] at hstep
    cases hfree : s.cvMtx with
    | none =>
      simp only [hfree, Option.some.injEq] at hstep
      obtain rfl := hstep
      exact ⟨rfl, rfl⟩
    | some holder => simp [hfree] at hstep
  | asleep notified => simp [StatsCollector.loopStep, hpc] at hstep
  | finished => simp [StatsCollector.loopStep, hpc] at hstep
  | _ =>
    simp only [StatsCollector.loopStep, hpc, Option.some.injEq] at hstep
    obtain rfl := hstep
    exact ⟨rfl, rfl⟩

theorem Awake.loopStep (h : Awake s) (hcleared : s.running = false)
    (hstep : StatsCollector.loopStep s = some s') : Awake s' := by
  obtain ⟨hdoze, hasleep⟩ := h
  cases hpc : s.loop with
  | locking =>
    simp only [StatsCollector.loopStep, hpc] at hstep
    cases hfree : s.cvMtx with
    | none =>
      simp only [hfree, Option.some.injEq] at hstep
      obtain rfl := hstep
      exact awake_of_pc (by simp) (by simp) (by simp)
    | some holder => simp [hfree] at hstep
  | relocking late =>
    simp only [StatsCollector.loopStep, hpc] at hstep
    cases hfree : s.cvMtx with
    | none =>
      simp only [hfree, Option.some.injEq] at hstep
      obtain rfl := hstep
      exact awake_of_pc (by simp) (by simp) (by simp)
    | some holder => simp [hfree] at hstep
  | checkingGen late =>
    simp only [StatsCollector.loopStep, hpc, Option.some.injEq] at hstep
    obtain rfl := hstep
    by_cases hdiffer : s.intervalGen % 2 ^ 32 ≠ s.gen % 2 ^ 32
    · rw [if_pos hdiffer]
      exact awake_of_pc (by simp) (by simp) (by simp)
    · rw [if_neg hdiffer]
      cases late with
      | true => exact awake_of_pc (by simp) (by simp) (by simp)
      | false =>
        simp only [dozing, hpc, decide_eq_false_iff_not] at hdoze
        exact absurd hdoze hdiffer
  | releasing =>
    simp only [dozing, hpc] at hdoze
    cases hdoze
  | asleep notified => simp [StatsCollector.loopStep, hpc] at hstep
  | finished => simp [StatsCollector.loopStep, hpc] at hstep
  | _ =>
    simp only [StatsCollector.loopStep, hpc, hcleared, Option.some.injEq] at hstep
    obtain rfl := hstep
    exact awake_of_pc (by simp) (by simp) (by simp)

variable [DecidableEq ι] {i : ι}

omit [DecidableEq ι] in
/-- The loop is awake after a notification that did not come too early. -/
theorem awake_notified {caller : ι → CallerPc} (h : dozing s = false) :
    Awake { s with loop := notifyAll s.loop, caller := caller } := by
  cases hpc : s.loop with
  | checkingGen late =>
    refine ⟨?_, by simp [notifyAll]⟩
    rw [dozing, hpc] at h
    exact h
  | releasing =>
    rw [dozing, hpc] at h
    exact absurd h.symm Bool.false_ne_true
  | _ => exact awake_of_pc (by simp [notifyAll]) (by simp [notifyAll]) (by simp [notifyAll])

theorem caller_was {pc pc' : CallerPc} (hcaller : s'.caller = Function.update s.caller i pc)
    (hne : pc' ≠ pc) {j : ι} (hj : s'.caller j = pc') : s.caller j = pc' := by
  rw [hcaller] at hj
  by_cases hji : j = i
  · subst hji
    rw [Function.update_self] at hj
    exact absurd hj.symm hne
  · rwa [Function.update_of_ne hji] at hj

theorem Woken.goes_on (h : Woken s) {pc : CallerPc} (hex : Exclusive s')
    (hcaller : s'.caller = Function.update s.caller i pc)
    (hstopping : .stopping ≠ pc) (hjoining : .joining ≠ pc)
    (hrunning : s'.running = s.running) (hawake : Awake s → Awake s') : Woken s' := by
  refine ⟨hex, fun j hj => hrunning.trans (h.cleared j ?_), fun ⟨j, hj⟩ => hawake (h.awake ⟨j, ?_⟩)⟩
  · exact hj.imp (caller_was hcaller hstopping) (caller_was hcaller hjoining)
  · exact caller_was hcaller hjoining hj

theorem Woken.callerStep (h : Woken s) (hheard : Heard s (.caller i))
    (hstep : StatsCollector.callerStep s i = some s') : Woken s' := by
  have hex := h.exclusive.callerStep hstep
  cases hpc : s.caller i with
  | outside => simp [StatsCollector.callerStep, hpc] at hstep
  | exchanging ms =>
    simp only [StatsCollector.callerStep, hpc, Option.some.injEq] at hstep
    obtain rfl := hstep
    by_cases hsame : s.intervalMs = ms
    · exact h.goes_on hex rfl (by simp [hsame]) (by simp [hsame]) rfl id
    · exact h.goes_on hex rfl (by simp [hsame]) (by simp [hsame]) rfl id
  | publishing =>
    simp only [StatsCollector.callerStep, hpc] at hstep
    cases hfree : s.cvMtx with
    | none =>
      simp only [hfree, Option.some.injEq] at hstep
      obtain rfl := hstep
      exact h.goes_on hex rfl (by simp) (by simp) rfl id
    | some holder => simp [hfree] at hstep
  | bumping =>
    simp only [StatsCollector.callerStep, hpc, Option.some.injEq] at hstep
    obtain rfl := hstep
    -- the comparison of the generations is made with the mutex, which this caller has
    have hloop := h.exclusive.loop_out (i := i) (by rw [hpc]; rfl)
    refine h.goes_on hex rfl (by simp) (by simp) rfl fun hawake => ⟨?_, hawake.2⟩
    refine eq_false_of_ne_true fun hdoze => ?_
    have hlocked := dozing_locked hdoze
    exact absurd (hloop.symm.trans hlocked) Bool.false_ne_true
  | unlocking =>
    simp only [StatsCollector.callerStep, hpc, Option.some.injEq] at hstep
    obtain rfl := hstep
    exact h.goes_on hex rfl (by simp) (by simp) rfl id
  | notifying =>
    simp only [StatsCollector.callerStep, hpc, Option.some.injEq] at hstep
    obtain rfl := hstep
    exact h.goes_on hex rfl (by simp) (by simp) rfl fun hawake => awake_notified hawake.1
  | clearing =>
    simp only [StatsCollector.callerStep, hpc, Option.some.injEq] at hstep
    obtain rfl := hstep
    refine ⟨hex, fun _ _ => rfl, ?_⟩
    rintro ⟨j, hj⟩
    refine h.awake ⟨j, caller_was (s := s) rfl ?_ hj⟩
    split <;> simp
  | stopping =>
    simp only [StatsCollector.callerStep, hpc, Option.some.injEq] at hstep
    obtain rfl := hstep
    exact ⟨hex, fun _ _ => h.cleared i (Or.inl hpc), fun _ => awake_notified (hheard hpc)⟩
  | joining =>
    simp only [StatsCollector.callerStep, hpc] at hstep
    by_cases hjoined : s.loop = .finished
    · rw [if_pos hjoined, Option.some.injEq] at hstep
      obtain rfl := hstep
      exact h.goes_on hex rfl (by simp) (by simp) rfl id
    · rw [if_neg hjoined] at hstep
      cases hstep

end Steps

variable [DecidableEq ι]

theorem Woken.step {s s' : StatsCollector ι} {a : StatsAction ι} (h : Woken s)
    (hheard : Heard s a) (hstep : StatsCollector.step s a = some s') : Woken s' := by
  have hex := h.exclusive.step hstep
  cases a with
  | loop =>
    have hkeeps := loopStep_keeps hstep
    refine ⟨hex, fun i hi => ?_, fun ⟨i, hi⟩ => ?_⟩
    · rw [hkeeps.1] at hi
      exact hkeeps.2.trans (h.cleared i hi)
    · rw [hkeeps.1] at hi
      exact (h.awake ⟨i, hi⟩).loopStep (h.cleared i (Or.inr hi)) hstep
  | wake late =>
    cases hpc : s.loop with
    | asleep notified =>
      simp only [StatsCollector.step, hpc, Option.some.injEq] at hstep
      obtain rfl := hstep
      exact ⟨hex, h.cleared, fun _ => awake_of_pc (by simp) (by simp) (by simp)⟩
    | _ => simp [StatsCollector.step, hpc] at hstep
  | setInterval i ms =>
    cases hpc : s.caller i with
    | outside =>
      simp only [StatsCollector.step, hpc, Option.some.injEq] at hstep
      obtain rfl := hstep
      exact h.goes_on hex rfl (by simp) (by simp) rfl id
    | _ => simp [StatsCollector.step, hpc] at hstep
  | stop i =>
    cases hpc : s.caller i with
    | outside =>
      simp only [StatsCollector.step, hpc, Option.some.injEq] at hstep
      obtain rfl := hstep
      exact h.goes_on hex rfl (by simp) (by simp) rfl id
    | _ => simp [StatsCollector.step, hpc] at hstep
  | caller i => exact h.callerStep hheard hstep

theorem Woken.run {s t : StatsCollector ι} {as : List (StatsAction ι)} (h : Woken s)
    (hheard : Along Heard StatsCollector.step s as)
    (hrun : Transition.run StatsCollector.step s as = some t) : Woken t :=
  run_invariant_along (fun _ _ _ hs hmeets hstep => hs.step hmeets hstep) h hheard hrun

/-- In every run in which `stop` notifies no loop that is about to sleep, the loop never
sleeps through a stop. -/
theorem stop_heard (intervalMs firstIntervalMs : ℤ) (as : List (StatsAction ι))
    (t : StatsCollector ι)
    (hheard : Along Heard StatsCollector.step (start intervalMs firstIntervalMs) as)
    (hrun : Transition.run StatsCollector.step (start intervalMs firstIntervalMs) as = some t) :
    ¬Missed t :=
  ((woken_start intervalMs firstIntervalMs).run hheard hrun).not_missed

def halting : List (StatsAction Unit) := [.stop (), .caller (), .caller ()]

/-- A stop while the loop sleeps: the notification ends the sleep, and the loop ends. -/
theorem stop_heard_asleep :
    ∃ t, Transition.run StatsCollector.step (start 600000 600000)
      (List.replicate 7 .loop ++ halting ++ .wake false :: List.replicate 5 .loop) = some t ∧
        t.loop = .finished ∧ ¬Missed t :=
  ⟨_, rfl, rfl, stop_heard 600000 600000 (List.replicate 7 .loop ++ halting ++
    .wake false :: List.replicate 5 .loop) _ (by decide) rfl⟩

/-- The same stop after the loop has found `running_` still set: ten minutes of sleep. -/
theorem stop_missed_checking :
    ∃ as, ∃ t : StatsCollector Unit,
      Transition.run StatsCollector.step (start 600000 600000) as = some t ∧
        t.wait = 600000 ∧ Missed t :=
  ⟨List.replicate 5 .loop ++ halting ++ List.replicate 2 .loop, _, rfl, rfl, ⟨(), rfl⟩, rfl, rfl⟩

/-- A stop that is not heard is missed: it notifies, and the loop goes to sleep. -/
theorem missed_of_not_heard {s : StatsCollector ι} {i : ι} (hcleared : s.running = false)
    (h : ¬Heard s (.caller i)) :
    ∃ n t, Transition.run StatsCollector.step s (.caller i :: List.replicate n .loop) = some t ∧
      Missed t := by
  obtain ⟨hstopping, hdoze⟩ := Classical.not_imp.mp h
  rw [Bool.not_eq_false] at hdoze
  have hnotifies : StatsCollector.callerStep s i = some { s with
      loop := notifyAll s.loop, caller := Function.update s.caller i .joining } := by
    simp only [StatsCollector.callerStep, hstopping]
  unfold dozing at hdoze
  split at hdoze
  · rename_i hpc
    have hequal := of_decide_eq_true hdoze
    refine ⟨2, { s with
      cvMtx := none
      loop := .asleep false
      caller := Function.update s.caller i .joining }, ?_,
      ⟨i, Function.update_self i _ _⟩, hcleared, rfl⟩
    show (StatsCollector.callerStep s i).bind _ = _
    rw [hnotifies, hpc]
    show (StatsCollector.loopStep _).bind _ = _
    simp only [StatsCollector.loopStep]
    rw [if_neg (not_not.mpr hequal)]
    rfl
  · rename_i hpc
    refine ⟨1, { s with
      cvMtx := none
      loop := .asleep false
      caller := Function.update s.caller i .joining }, ?_,
      ⟨i, Function.update_self i _ _⟩, hcleared, rfl⟩
    show (StatsCollector.callerStep s i).bind _ = _
    rw [hnotifies, hpc]
    rfl
  · exact absurd hdoze Bool.false_ne_true

end StopWakes
end CaenDaq
