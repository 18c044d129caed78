import CaenDaq.StatsCollector
import Mathlib.Data.Fintype.Basic

/-!
# The tick in flight

What the loop may count on while it holds the generation it loaded: the wait it serves is
no longer than the interval, or the call that shortened the interval is still to be seen.
One step of the loop and one step of a caller keep this, and so does every run.
-/

namespace CaenDaq
namespace TickInFlight

open StatsCollector Transition

variable {ι : Type}

def loopLocked : LoopPc → Bool
  | .loadingGen _ | .checkingRunning _ | .checkingGen _ | .releasing | .wokenUp | .shortening
  | .unlocking => true
  | _ => false

def callerLocked : CallerPc → Bool
  | .bumping | .unlocking => true
  | _ => false

/-- A call has stored its interval and still has to bump the generation. -/
def unpublished : CallerPc → Bool
  | .publishing | .bumping => true
  | _ => false

/-- A call has bumped the generation and still has to notify the loop. -/
def unnotified : CallerPc → Bool
  | .unlocking | .notifying => true
  | _ => false

def settingInterval : CallerPc → Bool
  | .exchanging _ | .publishing | .bumping | .unlocking | .notifying => true
  | _ => false

/-- With no call of `setInterval` in progress, a loop that sleeps with no wake-up pending
serves a wait no longer than the interval. -/
def Served (s : StatsCollector ι) : Prop :=
  (∀ i, settingInterval (s.caller i) = false) → s.loop = .asleep false → s.wait ≤ s.intervalMs

/-- The wait is no longer than the interval, or a call is still to bump the generation. -/
def Current (s : StatsCollector ι) : Prop :=
  s.wait ≤ s.intervalMs ∨ ∃ i, unpublished (s.caller i) = true

/-- The same, or the generation has left the one that was loaded. -/
def Covered (s : StatsCollector ι) : Prop := Current s ∨ s.gen < s.intervalGen

/-- What the loop may count on where it is. -/
def Expects (s : StatsCollector ι) : LoopPc → Prop
  | .loadingGen true | .releasing => Current s
  | .checkingRunning _ | .checkingGen _ | .relocking _ | .asleep true => Covered s
  | .asleep false => Covered s ∧ (Current s ∨ ∃ i, unnotified (s.caller i) = true)
  | _ => True

theorem Expects.imp {s s' : StatsCollector ι} {pc : LoopPc} (h : Expects s pc)
    (hcurrent : loopLocked pc = true → Current s → Current s') (hcovered : Covered s → Covered s')
    (hasleep : pc = .asleep false → (Current s ∨ ∃ i, unnotified (s.caller i) = true) →
      Current s' ∨ ∃ i, unnotified (s'.caller i) = true) : Expects s' pc := by
  cases pc with
  | loadingGen again =>
    cases again with
    | false => trivial
    | true => exact hcurrent rfl h
  | asleep notified =>
    cases notified with
    | false => exact ⟨hcovered h.1, hasleep rfl h.2⟩
    | true => exact hcovered h
  | releasing => exact hcurrent rfl h
  | checkingRunning late => exact hcovered h
  | checkingGen late => exact hcovered h
  | relocking late => exact hcovered h
  | _ => trivial

/-- Loop and callers stand where they need the mutex only while they have it. -/
structure Exclusive (s : StatsCollector ι) : Prop where
  loopLock : loopLocked s.loop = true → s.cvMtx = some .loop
  callerLock : ∀ i, callerLocked (s.caller i) = true → s.cvMtx = some (.caller i)

structure Paced (s : StatsCollector ι) : Prop extends Exclusive s where
  gen : s.gen ≤ s.intervalGen
  expects : Expects s s.loop

/-- The condition on a step. For a tick the loop loads the interval first and the
generation later, and by then no call has shortened the interval and bumped the generation
already. And the loop does not take a generation for the one it loaded because the counter
has come round. -/
def Timely (s : StatsCollector ι) : StatsAction ι → Prop
  | .loop => (s.loop = .loadingGen false → Current s) ∧
      (s.loop = .checkingGen false → s.intervalGen % 2 ^ 32 = s.gen % 2 ^ 32 →
        s.gen = s.intervalGen ∨ Current s)
  | _ => True

instance [Fintype ι] (s : StatsCollector ι) : Decidable (Current s) :=
  inferInstanceAs (Decidable (_ ∨ ∃ i, unpublished (s.caller i) = true))

instance [Fintype ι] (s : StatsCollector ι) : ∀ a, Decidable (Timely s a)
  | .loop => inferInstanceAs (Decidable ((_ → _) ∧ (_ → _ → _ ∨ _)))
  | .wake _ | .setInterval _ _ | .stop _ | .caller _ => inferInstanceAs (Decidable True)

theorem exclusive_start (intervalMs firstIntervalMs : ℤ) :
    Exclusive (start intervalMs firstIntervalMs : StatsCollector ι) :=
  ⟨fun h => absurd h Bool.false_ne_true, fun _ h => absurd h Bool.false_ne_true⟩

theorem paced_start (intervalMs firstIntervalMs : ℤ) :
    Paced (start intervalMs firstIntervalMs : StatsCollector ι) :=
  ⟨exclusive_start intervalMs firstIntervalMs, Nat.le_refl 0, trivial⟩

section Mutex

variable {s s' : StatsCollector ι}

theorem Exclusive.callers_unlocked (h : Exclusive s) (hholder : ∀ i, s.cvMtx ≠ some (.caller i))
    (i : ι) : callerLocked (s.caller i) = false :=
  eq_false_of_ne_true fun hcaller => hholder i (h.callerLock i hcaller)

theorem Exclusive.loop_unlocked (h : Exclusive s) (hholder : s.cvMtx ≠ some .loop) :
    loopLocked s.loop = false :=
  eq_false_of_ne_true fun hloop => hholder (h.loopLock hloop)

theorem Exclusive.loop_out (h : Exclusive s) {i : ι} (hlocked : callerLocked (s.caller i) = true) :
    loopLocked s.loop = false :=
  h.loop_unlocked (by rw [h.callerLock i hlocked]; simp)

theorem Exclusive.only_locked (h : Exclusive s) {i : ι} (hlocked : callerLocked (s.caller i) = true)
    {j : ι} (hj : callerLocked (s.caller j) = true) : j = i := by
  have hholder := (h.callerLock j hj).symm.trans (h.callerLock i hlocked)
  cases hholder
  rfl

theorem Exclusive.goes (h : Exclusive s) (hmtx : s'.cvMtx = s.cvMtx) (hcaller : s'.caller = s.caller)
    (hloop : loopLocked s'.loop = true → loopLocked s.loop = true) : Exclusive s' := by
  refine ⟨fun hpc => hmtx.trans (h.loopLock (hloop hpc)), fun i hi => ?_⟩
  rw [hcaller] at hi
  exact hmtx.trans (h.callerLock i hi)

theorem Exclusive.locks (h : Exclusive s) (hfree : s.cvMtx = none) (hmtx : s'.cvMtx = some .loop)
    (hcaller : s'.caller = s.caller) : Exclusive s' := by
  refine ⟨fun _ => hmtx, fun i hi => ?_⟩
  rw [hcaller, h.callers_unlocked (by simp [hfree])] at hi
  exact absurd hi Bool.false_ne_true

theorem Exclusive.unlocks (h : Exclusive s) (hlocked : loopLocked s.loop = true)
    (hloop : loopLocked s'.loop = false) (hcaller : s'.caller = s.caller) : Exclusive s' := by
  refine ⟨fun hpc => absurd (hloop.symm.trans hpc) Bool.false_ne_true, fun i hi => ?_⟩
  rw [hcaller, h.callers_unlocked (by simp [h.loopLock hlocked])] at hi
  exact absurd hi Bool.false_ne_true

theorem Exclusive.loopStep (h : Exclusive s) (hstep : StatsCollector.loopStep s = some s') :
    Exclusive s' := by
  cases hpc : s.loop with
  | starting =>
    simp only [StatsCollector.loopStep, hpc, Option.some.injEq] at hstep
    obtain rfl := hstep
    exact h.goes rfl rfl fun hlock => absurd hlock Bool.false_ne_true
  | testing =>
    simp only [StatsCollector.loopStep, hpc, Option.some.injEq] at hstep
    obtain rfl := hstep
    refine h.goes rfl rfl fun hlock => ?_
    cases hr : s.running <;> simp [hr, loopLocked] at hlock
  | locking =>
    simp only [StatsCollector.loopStep, hpc] at hstep
    cases hfree : s.cvMtx with
    | none =>
      simp only [hfree, Option.some.injEq] at hstep
      obtain rfl := hstep
      exact h.locks hfree rfl rfl
    | some holder => simp [hfree] at hstep
  | loadingGen again =>
    simp only [StatsCollector.loopStep, hpc, Option.some.injEq] at hstep
    obtain rfl := hstep
    exact h.goes rfl rfl fun _ => by rw [hpc]; rfl
  | checkingRunning late =>
    simp only [StatsCollector.loopStep, hpc, Option.some.injEq] at hstep
    obtain rfl := hstep
    exact h.goes rfl rfl fun _ => by rw [hpc]; rfl
  | checkingGen late =>
    simp only [StatsCollector.loopStep, hpc, Option.some.injEq] at hstep
    obtain rfl := hstep
    exact h.goes rfl rfl fun _ => by rw [hpc]; rfl
  | releasing =>
    simp only [StatsCollector.loopStep, hpc, Option.some.injEq] at hstep
    obtain rfl := hstep
    exact h.unlocks (by rw [hpc]; rfl) rfl rfl
  | asleep notified => simp [StatsCollector.loopStep, hpc] at hstep
  | relocking late =>
    simp only [StatsCollector.loopStep, hpc] at hstep
    cases hfree : s.cvMtx with
    | none =>
      simp only [hfree, Option.some.injEq] at hstep
      obtain rfl := hstep
      exact h.locks hfree rfl rfl
    | some holder => simp [hfree] at hstep
  | wokenUp =>
    simp only [StatsCollector.loopStep, hpc, Option.some.injEq] at hstep
    obtain rfl := hstep
    exact h.goes rfl rfl fun _ => by rw [hpc]; rfl
  | shortening =>
    simp only [StatsCollector.loopStep, hpc, Option.some.injEq] at hstep
    obtain rfl := hstep
    exact h.goes rfl rfl fun _ => by rw [hpc]; rfl
  | unlocking =>
    simp only [StatsCollector.loopStep, hpc, Option.some.injEq] at hstep
    obtain rfl := hstep
    exact h.unlocks (by rw [hpc]; rfl) rfl rfl
  | leaving =>
    simp only [StatsCollector.loopStep, hpc, Option.some.injEq] at hstep
    obtain rfl := hstep
    refine h.goes rfl rfl fun hlock => ?_
    cases hr : s.running <;> simp [hr, loopLocked] at hlock
  | taking =>
    simp only [StatsCollector.loopStep, hpc, Option.some.injEq] at hstep
    obtain rfl := hstep
    exact h.goes rfl rfl fun hlock => absurd hlock Bool.false_ne_true
  | sampling =>
    simp only [StatsCollector.loopStep, hpc, Option.some.injEq] at hstep
    obtain rfl := hstep
    exact h.goes rfl rfl fun hlock => absurd hlock Bool.false_ne_true
  | finished => simp [StatsCollector.loopStep, hpc] at hstep

variable [DecidableEq ι] {i : ι}

theorem Exclusive.caller_goes {pc : CallerPc}
    (hcaller : s'.caller = Function.update s.caller i pc)
    (hloop : loopLocked s'.loop = true → s'.cvMtx = some .loop)
    (hself : callerLocked pc = true → s'.cvMtx = some (.caller i))
    (hothers : ∀ j ≠ i, callerLocked (s.caller j) = true → s'.cvMtx = some (.caller j)) :
    Exclusive s' := by
  refine ⟨hloop, fun j hj => ?_⟩
  rw [hcaller] at hj
  by_cases hji : j = i
  · subst hji
    rw [Function.update_self] at hj
    exact hself hj
  · rw [Function.update_of_ne hji] at hj
    exact hothers j hji hj

theorem Exclusive.caller_keeps (h : Exclusive s) {pc : CallerPc}
    (hcaller : s'.caller = Function.update s.caller i pc) (hmtx : s'.cvMtx = s.cvMtx)
    (hloop : loopLocked s'.loop = loopLocked s.loop)
    (hpc : callerLocked pc = true → callerLocked (s.caller i) = true) : Exclusive s' :=
  Exclusive.caller_goes hcaller (fun hl => hmtx.trans (h.loopLock (hloop.symm.trans hl)))
    (fun hl => hmtx.trans (h.callerLock i (hpc hl))) fun j _ hj => hmtx.trans (h.callerLock j hj)

theorem loopLocked_notifyAll (pc : LoopPc) : loopLocked (notifyAll pc) = loopLocked pc := by
  cases pc <;> rfl

theorem Exclusive.callerStep (h : Exclusive s) (hstep : StatsCollector.callerStep s i = some s') :
    Exclusive s' := by
  have hno : ∀ {p : Prop}, false = true → p := fun hf => absurd hf Bool.false_ne_true
  cases hpc : s.caller i with
  | outside => simp [StatsCollector.callerStep, hpc] at hstep
  | exchanging ms =>
    simp only [StatsCollector.callerStep, hpc, Option.some.injEq] at hstep
    obtain rfl := hstep
    refine h.caller_keeps rfl rfl rfl fun hlock => ?_
    split at hlock <;> exact hno hlock
  | publishing =>
    simp only [StatsCollector.callerStep, hpc] at hstep
    cases hfree : s.cvMtx with
    | none =>
      simp only [hfree, Option.some.injEq] at hstep
      obtain rfl := hstep
      have hloop := h.loop_unlocked (by simp [hfree])
      have hcallers := h.callers_unlocked (by simp [hfree])
      exact Exclusive.caller_goes rfl (fun hl => hno (hloop.symm.trans hl)) (fun _ => rfl)
        fun j _ hj => hno ((hcallers j).symm.trans hj)
    | some holder => simp [hfree] at hstep
  | bumping =>
    simp only [StatsCollector.callerStep, hpc, Option.some.injEq] at hstep
    obtain rfl := hstep
    exact h.caller_keeps rfl rfl rfl fun _ => by rw [hpc]; rfl
  | unlocking =>
    simp only [StatsCollector.callerStep, hpc, Option.some.injEq] at hstep
    obtain rfl := hstep
    have hlocked : callerLocked (s.caller i) = true := by rw [hpc]; rfl
    exact Exclusive.caller_goes rfl (fun hl => hno ((h.loop_out hlocked).symm.trans hl)) hno
      fun j hji hj => absurd (h.only_locked hlocked hj) hji
  | notifying =>
    simp only [StatsCollector.callerStep, hpc, Option.some.injEq] at hstep
    obtain rfl := hstep
    exact h.caller_keeps rfl rfl (loopLocked_notifyAll _) hno
  | clearing =>
    simp only [StatsCollector.callerStep, hpc, Option.some.injEq] at hstep
    obtain rfl := hstep
    refine h.caller_keeps rfl rfl rfl fun hlock => ?_
    split at hlock <;> exact hno hlock
  | stopping =>
    simp only [StatsCollector.callerStep, hpc, Option.some.injEq] at hstep
    obtain rfl := hstep
    exact h.caller_keeps rfl rfl (loopLocked_notifyAll _) hno
  | joining =>
    simp only [StatsCollector.callerStep, hpc] at hstep
    by_cases hjoined : s.loop = .finished
    · rw [if_pos hjoined, Option.some.injEq] at hstep
      obtain rfl := hstep
      exact h.caller_keeps rfl rfl rfl hno
    · rw [if_neg hjoined] at hstep
      cases hstep

theorem Exclusive.step {a : StatsAction ι} (h : Exclusive s)
    (hstep : StatsCollector.step s a = some s') : Exclusive s' := by
  have hno : ∀ {p : Prop}, false = true → p := fun hf => absurd hf Bool.false_ne_true
  cases a with
  | loop => exact h.loopStep hstep
  | wake late =>
    cases hpc : s.loop with
    | asleep notified =>
      simp only [StatsCollector.step, hpc, Option.some.injEq] at hstep
      obtain rfl := hstep
      exact h.goes rfl rfl hno
    | _ => simp [StatsCollector.step, hpc] at hstep
  | setInterval i ms =>
    cases hpc : s.caller i with
    | outside =>
      simp only [StatsCollector.step, hpc, Option.some.injEq] at hstep
      obtain rfl := hstep
      exact h.caller_keeps rfl rfl rfl hno
    | _ => simp [StatsCollector.step, hpc] at hstep
  | stop i =>
    cases hpc : s.caller i with
    | outside =>
      simp only [StatsCollector.step, hpc, Option.some.injEq] at hstep
      obtain rfl := hstep
      exact h.caller_keeps rfl rfl rfl hno
    | _ => simp [StatsCollector.step, hpc] at hstep
  | caller i => exact h.callerStep hstep

end Mutex

section Loop

variable {s s' : StatsCollector ι}

theorem Paced.goes (h : Paced s) (hex : Exclusive s') (hwait : s'.wait = s.wait)
    (hinterval : s'.intervalMs = s.intervalMs) (hgen : s'.gen = s.gen)
    (hbumps : s'.intervalGen = s.intervalGen) (hcaller : s'.caller = s.caller)
    (hexpects : Expects s s'.loop) : Paced s' := by
  have hcurrent : Current s → Current s' := by
    unfold Current
    rw [hwait, hinterval, hcaller]
    exact id
  refine ⟨hex, by rw [hgen, hbumps]; exact h.gen,
    hexpects.imp (fun _ => hcurrent) (fun hc => hc.imp hcurrent ?_)
    fun _ hc => hc.imp hcurrent ?_⟩
  · rw [hgen, hbumps]
    exact id
  · rw [hcaller]
    exact id

theorem Paced.loopStep (h : Paced s) (ht : Timely s .loop)
    (hstep : StatsCollector.loopStep s = some s') : Paced s' := by
  obtain ⟨hload, hcompare⟩ := ht
  have hexpects := h.expects
  have hex := h.toExclusive.loopStep hstep
  cases hpc : s.loop with
  | starting =>
    simp only [StatsCollector.loopStep, hpc, Option.some.injEq] at hstep
    obtain rfl := hstep
    exact ⟨hex, h.gen, trivial⟩
  | testing =>
    simp only [StatsCollector.loopStep, hpc, Option.some.injEq] at hstep
    obtain rfl := hstep
    refine h.goes hex rfl rfl rfl rfl rfl ?_
    cases s.running <;> trivial
  | locking =>
    simp only [StatsCollector.loopStep, hpc] at hstep
    cases hfree : s.cvMtx with
    | none =>
      simp only [hfree, Option.some.injEq] at hstep
      obtain rfl := hstep
      exact h.goes hex rfl rfl rfl rfl rfl trivial
    | some holder => simp [hfree] at hstep
  | loadingGen again =>
    simp only [StatsCollector.loopStep, hpc, Option.some.injEq] at hstep
    obtain rfl := hstep
    rw [hpc] at hexpects
    -- within a tick the wait was cut under the mutex, for a new one the condition has to say it
    have hcurrent : Current s := by
      cases again with
      | false => exact hload hpc
      | true => exact hexpects
    exact ⟨hex, Nat.le_refl _, Or.inl hcurrent⟩
  | checkingRunning late =>
    simp only [StatsCollector.loopStep, hpc, Option.some.injEq] at hstep
    obtain rfl := hstep
    rw [hpc] at hexpects
    refine h.goes hex rfl rfl rfl rfl rfl ?_
    cases s.running with
    | false => trivial
    | true => exact hexpects
  | checkingGen late =>
    simp only [StatsCollector.loopStep, hpc, Option.some.injEq] at hstep
    obtain rfl := hstep
    rw [hpc] at hexpects
    refine h.goes hex rfl rfl rfl rfl rfl ?_
    by_cases hdiffer : s.intervalGen % 2 ^ 32 ≠ s.gen % 2 ^ 32
    · rw [if_pos hdiffer]
      trivial
    · rw [if_neg hdiffer]
      cases late with
      | true => trivial
      | false =>
        rcases hexpects with hcurrent | hbumped
        · exact hcurrent
        · rcases hcompare hpc (not_not.mp hdiffer) with hequal | hcurrent
          · exact absurd hequal (Nat.ne_of_lt hbumped)
          · exact hcurrent
  | releasing =>
    simp only [StatsCollector.loopStep, hpc, Option.some.injEq] at hstep
    obtain rfl := hstep
    rw [hpc] at hexpects
    exact h.goes hex rfl rfl rfl rfl rfl ⟨Or.inl hexpects, Or.inl hexpects⟩
  | asleep notified => simp [StatsCollector.loopStep, hpc] at hstep
  | relocking late =>
    simp only [StatsCollector.loopStep, hpc] at hstep
    rw [hpc] at hexpects
    cases hfree : s.cvMtx with
    | none =>
      simp only [hfree, Option.some.injEq] at hstep
      obtain rfl := hstep
      exact h.goes hex rfl rfl rfl rfl rfl hexpects
    | some holder => simp [hfree] at hstep
  | wokenUp =>
    simp only [StatsCollector.loopStep, hpc, Option.some.injEq] at hstep
    obtain rfl := hstep
    refine h.goes hex rfl rfl rfl rfl rfl ?_
    cases s.running <;> trivial
  | shortening =>
    simp only [StatsCollector.loopStep, hpc, Option.some.injEq] at hstep
    obtain rfl := hstep
    exact ⟨hex, h.gen, Or.inl (min_le_right _ _)⟩
  | unlocking =>
    simp only [StatsCollector.loopStep, hpc, Option.some.injEq] at hstep
    obtain rfl := hstep
    exact h.goes hex rfl rfl rfl rfl rfl trivial
  | leaving =>
    simp only [StatsCollector.loopStep, hpc, Option.some.injEq] at hstep
    obtain rfl := hstep
    refine h.goes hex rfl rfl rfl rfl rfl ?_
    cases s.running <;> trivial
  | taking =>
    simp only [StatsCollector.loopStep, hpc, Option.some.injEq] at hstep
    obtain rfl := hstep
    exact ⟨hex, h.gen, trivial⟩
  | sampling =>
    simp only [StatsCollector.loopStep, hpc, Option.some.injEq] at hstep
    obtain rfl := hstep
    exact h.goes hex rfl rfl rfl rfl rfl trivial
  | finished => simp [StatsCollector.loopStep, hpc] at hstep

theorem Paced.wakes (h : Paced s) {notified : Bool} (hpc : s.loop = .asleep notified)
    {late : Bool} (hex : Exclusive { s with loop := .relocking late }) :
    Paced { s with loop := .relocking late } := by
  refine h.goes hex rfl rfl rfl rfl rfl ?_
  have hexpects := h.expects
  rw [hpc] at hexpects
  cases notified with
  | false => exact hexpects.1
  | true => exact hexpects

end Loop

section Callers

variable [DecidableEq ι] {s s' : StatsCollector ι} {i : ι}

theorem exists_update {p : CallerPc → Bool} {caller : ι → CallerPc} {pc : CallerPc}
    (hpc : p (caller i) = true → p pc = true) (h : ∃ j, p (caller j) = true) :
    ∃ j, p (Function.update caller i pc j) = true := by
  obtain ⟨j, hj⟩ := h
  by_cases hji : j = i
  · subst hji
    exact ⟨j, by rw [Function.update_self]; exact hpc hj⟩
  · exact ⟨j, by rw [Function.update_of_ne hji]; exact hj⟩

theorem Current.update {pc : CallerPc}
    (hpc : unpublished (s.caller i) = true → unpublished pc = true) (h : Current s) :
    s.wait ≤ s.intervalMs ∨ ∃ j, unpublished (Function.update s.caller i pc j) = true :=
  h.imp id (exists_update hpc)

theorem Paced.goes_on (h : Paced s) {pc : CallerPc} (hex : Exclusive s')
    (hwait : s'.wait = s.wait) (hinterval : s'.intervalMs = s.intervalMs) (hgen : s'.gen = s.gen)
    (hbumps : s'.intervalGen = s.intervalGen) (hloop : s'.loop = s.loop)
    (hcaller : s'.caller = Function.update s.caller i pc)
    (hunpublished : unpublished (s.caller i) = true → unpublished pc = true)
    (hunnotified : unnotified (s.caller i) = true → unnotified pc = true) : Paced s' := by
  have hcurrent : Current s → Current s' := by
    intro hc
    rw [Current, hwait, hinterval, hcaller]
    exact hc.update hunpublished
  refine ⟨hex, by rw [hgen, hbumps]; exact h.gen, ?_⟩
  rw [hloop]
  refine h.expects.imp (fun _ => hcurrent) (fun hc => hc.imp hcurrent ?_)
    fun _ hc => hc.imp hcurrent ?_
  · rw [hgen, hbumps]
    exact id
  · rw [hcaller]
    exact exists_update hunnotified

theorem Paced.notifies (h : Paced s) {pc : CallerPc}
    (hex : Exclusive { s with
      loop := notifyAll s.loop, caller := Function.update s.caller i pc })
    (hunpublished : unpublished (s.caller i) = true → unpublished pc = true) :
    Paced { s with loop := notifyAll s.loop, caller := Function.update s.caller i pc } := by
  have hexpects : Expects s (notifyAll s.loop) := by
    have hbefore := h.expects
    cases hpc : s.loop with
    | asleep notified =>
      rw [hpc] at hbefore
      cases notified with
      | false => exact hbefore.1
      | true => exact hbefore
    | _ => rwa [hpc] at hbefore
  have hawake : notifyAll s.loop ≠ .asleep false := by
    cases s.loop <;> simp [notifyAll]
  exact ⟨hex, h.gen, hexpects.imp (fun _ hc => hc.update hunpublished)
    (fun hc => hc.imp (·.update hunpublished) id) fun hpc => absurd hpc hawake⟩

theorem Paced.callerStep (h : Paced s) (hstep : StatsCollector.callerStep s i = some s') :
    Paced s' := by
  have hno : ∀ {p : Prop}, false = true → p := fun hf => absurd hf Bool.false_ne_true
  have hex := h.toExclusive.callerStep hstep
  cases hpc : s.caller i with
  | outside => simp [StatsCollector.callerStep, hpc] at hstep
  | exchanging ms =>
    simp only [StatsCollector.callerStep, hpc, Option.some.injEq] at hstep
    obtain rfl := hstep
    by_cases hsame : s.intervalMs = ms
    · subst hsame
      rw [if_pos rfl] at hex ⊢
      exact h.goes_on hex rfl rfl rfl rfl rfl rfl (by rw [hpc]; exact id) (by rw [hpc]; exact id)
    · have hcurrent : ∃ j, unpublished (Function.update s.caller i .publishing j) = true :=
        ⟨i, by rw [Function.update_self]; rfl⟩
      rw [if_neg hsame] at hex ⊢
      exact ⟨hex, h.gen, h.expects.imp (fun _ _ => Or.inr hcurrent)
        (fun _ => Or.inl (Or.inr hcurrent)) fun _ _ => Or.inl (Or.inr hcurrent)⟩
  | publishing =>
    simp only [StatsCollector.callerStep, hpc] at hstep
    cases hfree : s.cvMtx with
    | none =>
      simp only [hfree, Option.some.injEq] at hstep
      obtain rfl := hstep
      exact h.goes_on hex rfl rfl rfl rfl rfl rfl (fun _ => rfl) (by rw [hpc]; exact id)
    | some holder => simp [hfree] at hstep
  | bumping =>
    simp only [StatsCollector.callerStep, hpc, Option.some.injEq] at hstep
    obtain rfl := hstep
    -- with the mutex taken the loop is at none of the places that the bump would disturb
    have hloop := h.toExclusive.loop_out (i := i) (by rw [hpc]; rfl)
    have hlocked : ∀ {p : Prop}, loopLocked s.loop = true → p :=
      fun hlock => hno (hloop.symm.trans hlock)
    have hunnotified : ∃ j, unnotified (Function.update s.caller i .unlocking j) = true :=
      ⟨i, by rw [Function.update_self]; rfl⟩
    exact ⟨hex, Nat.le_succ_of_le h.gen, h.expects.imp hlocked
      (fun _ => Or.inr (Nat.lt_succ_of_le h.gen)) fun _ _ => Or.inr hunnotified⟩
  | unlocking =>
    simp only [StatsCollector.callerStep, hpc, Option.some.injEq] at hstep
    obtain rfl := hstep
    exact h.goes_on hex rfl rfl rfl rfl rfl rfl (by rw [hpc]; exact id) fun _ => rfl
  | notifying =>
    simp only [StatsCollector.callerStep, hpc, Option.some.injEq] at hstep
    obtain rfl := hstep
    exact h.notifies hex (by rw [hpc]; exact id)
  | clearing =>
    simp only [StatsCollector.callerStep, hpc, Option.some.injEq] at hstep
    obtain rfl := hstep
    exact h.goes_on hex rfl rfl rfl rfl rfl rfl (by rw [hpc]; exact hno) (by rw [hpc]; exact hno)
  | stopping =>
    simp only [StatsCollector.callerStep, hpc, Option.some.injEq] at hstep
    obtain rfl := hstep
    exact h.notifies hex (by rw [hpc]; exact id)
  | joining =>
    simp only [StatsCollector.callerStep, hpc] at hstep
    by_cases hjoined : s.loop = .finished
    · rw [if_pos hjoined, Option.some.injEq] at hstep
      obtain rfl := hstep
      exact h.goes_on hex rfl rfl rfl rfl rfl rfl (by rw [hpc]; exact id) (by rw [hpc]; exact id)
    · rw [if_neg hjoined] at hstep
      cases hstep

theorem Paced.enters (h : Paced s) (hpc : s.caller i = .outside) {pc : CallerPc}
    (hex : Exclusive { s with caller := Function.update s.caller i pc }) :
    Paced { s with caller := Function.update s.caller i pc } :=
  h.goes_on hex rfl rfl rfl rfl rfl rfl
    (by rw [hpc]; exact fun hno => absurd hno Bool.false_ne_true)
    (by rw [hpc]; exact fun hno => absurd hno Bool.false_ne_true)

end Callers

variable [DecidableEq ι]

theorem Paced.step {s s' : StatsCollector ι} {a : StatsAction ι} (h : Paced s) (ht : Timely s a)
    (hstep : StatsCollector.step s a = some s') : Paced s' := by
  have hex := h.toExclusive.step hstep
  cases a with
  | loop => exact h.loopStep ht hstep
  | wake late =>
    cases hpc : s.loop with
    | asleep notified =>
      simp only [StatsCollector.step, hpc, Option.some.injEq] at hstep
      obtain rfl := hstep
      exact h.wakes hpc hex
    | _ => simp [StatsCollector.step, hpc] at hstep
  | setInterval i ms =>
    cases hpc : s.caller i with
    | outside =>
      simp only [StatsCollector.step, hpc, Option.some.injEq] at hstep
      obtain rfl := hstep
      exact h.enters hpc hex
    | _ => simp [StatsCollector.step, hpc] at hstep
  | stop i =>
    cases hpc : s.caller i with
    | outside =>
      simp only [StatsCollector.step, hpc, Option.some.injEq] at hstep
      obtain rfl := hstep
      exact h.enters hpc hex
    | _ => simp [StatsCollector.step, hpc] at hstep
  | caller i => exact h.callerStep hstep

theorem Paced.run {s t : StatsCollector ι} {as : List (StatsAction ι)} (h : Paced s)
    (ht : Along Timely StatsCollector.step s as)
    (hrun : Transition.run StatsCollector.step s as = some t) : Paced t :=
  run_invariant_along (fun _ _ _ hs hmeets hstep => hs.step hmeets hstep) h ht hrun

omit [DecidableEq ι] in
theorem settingInterval_of {pc : CallerPc} (h : unpublished pc = true ∨ unnotified pc = true) :
    settingInterval pc = true := by
  cases pc with
  | publishing => rfl
  | bumping => rfl
  | unlocking => rfl
  | notifying => rfl
  | _ => rcases h with h | h <;> exact absurd h Bool.false_ne_true

omit [DecidableEq ι] in
theorem Paced.served {s : StatsCollector ι} (h : Paced s) : Served s := by
  intro hnone hasleep
  have hexpects := h.expects
  rw [hasleep] at hexpects
  have hidle : ∀ {p : CallerPc → Bool}, (∀ pc, p pc = true → settingInterval pc = true) →
      ¬∃ i, p (s.caller i) = true := by
    rintro p hp ⟨i, hi⟩
    exact absurd ((hnone i).symm.trans (hp _ hi)) Bool.false_ne_true
  rcases hexpects.2 with (hwait | hcalls) | hcalls
  · exact hwait
  · exact absurd hcalls (hidle fun _ hpc => settingInterval_of (Or.inl hpc))
  · exact absurd hcalls (hidle fun _ hpc => settingInterval_of (Or.inr hpc))

/-- In every run of timely steps the sleeping loop serves a wait no longer than the
interval, once no call of `setInterval` is in progress. -/
theorem interval_served (intervalMs firstIntervalMs : ℤ) (as : List (StatsAction ι))
    (t : StatsCollector ι)
    (ht : Along Timely StatsCollector.step (start intervalMs firstIntervalMs) as)
    (hrun : Transition.run StatsCollector.step (start intervalMs firstIntervalMs) as = some t) :
    Served t :=
  ((paced_start intervalMs firstIntervalMs).run ht hrun).served

def calling (ms : ℤ) : List (StatsAction Unit) :=
  .setInterval () ms :: List.replicate 5 (.caller ())

/-- The interval goes from a minute to a second while the loop sleeps, before its first
tick is over. -/
theorem interval_served_asleep :
    ∃ t, Transition.run StatsCollector.step (start 60000 2000)
      (List.replicate 7 .loop ++ calling 1000 ++ .wake false :: List.replicate 9 .loop) = some t ∧
        t.loop = .asleep false ∧ t.intervalMs = 1000 ∧ Served t :=
  ⟨_, rfl, rfl, rfl, interval_served 60000 2000 (List.replicate 7 .loop ++ calling 1000 ++
    .wake false :: List.replicate 9 .loop) _ (by decide) rfl⟩

/-- The same call while the loop samples: the loop goes to sleep for the minute. -/
theorem interval_deferred_sampling :
    ∃ as, ∃ t : StatsCollector Unit,
      Transition.run StatsCollector.step (start 60000 2000) as = some t ∧
        t.intervalMs = 1000 ∧ t.wait = 60000 ∧ ¬Served t := by
  refine ⟨List.replicate 7 .loop ++ .wake true :: List.replicate 6 .loop ++ calling 1000 ++
    List.replicate 7 .loop, _, rfl, rfl, rfl, fun h => ?_⟩
  have hwait := h (fun _ => rfl) rfl
  exact absurd hwait (by decide)

/-- A step that is not timely does harm: with the loop running and no call in progress,
the loop goes to sleep for longer than the interval. -/
theorem deferred_of_not_timely {s : StatsCollector ι} (hrunning : s.running = true)
    (hnone : ∀ i, settingInterval (s.caller i) = false) (h : ¬Timely s .loop) :
    ∃ n t, Transition.run StatsCollector.step s (List.replicate n .loop) = some t ∧ ¬Served t := by
  have hbad : ∀ t : StatsCollector ι, t.caller = s.caller → t.wait = s.wait →
      t.intervalMs = s.intervalMs → t.loop = .asleep false → ¬Current s → ¬Served t := by
    intro t hcaller hwait hinterval hasleep hcurrent hserved
    refine hcurrent (Or.inl ?_)
    rw [← hwait, ← hinterval]
    exact hserved (by rw [hcaller]; exact hnone) hasleep
  rw [Timely, not_and_or] at h
  rcases h with hload | hcompare
  · obtain ⟨hpc, hcurrent⟩ := Classical.not_imp.mp hload
    refine ⟨4, { s with gen := s.intervalGen, cvMtx := none, loop := .asleep false }, ?_,
      hbad _ rfl rfl rfl rfl hcurrent⟩
    simp [Transition.run, StatsCollector.step, StatsCollector.loopStep, hpc, hrunning]
  · obtain ⟨hpc, hcompare⟩ := Classical.not_imp.mp hcompare
    obtain ⟨hequal, hneither⟩ := Classical.not_imp.mp hcompare
    have hreleases : StatsCollector.loopStep s = some { s with loop := .releasing } := by
      simp only [StatsCollector.loopStep, hpc]
      rw [if_neg (not_not.mpr hequal)]
      rfl
    refine ⟨2, { s with cvMtx := none, loop := .asleep false }, ?_,
      hbad _ rfl rfl rfl rfl fun hcurrent => hneither (Or.inr hcurrent)⟩
    show (StatsCollector.loopStep s).bind _ = _
    rw [hreleases]
    rfl

end TickInFlight
end CaenDaq
