import CaenDaq.Transition
import Mathlib.Logic.Function.Basic
import Mathlib.Algebra.Order.Ring.Int

/-!
# The pacing of the statistics collector

The loop of `StatsCollector` and its callers, one step for each load, each store, each
time the mutex is taken or let go, and each notification. How long the loop waits is kept
as a number. Time itself is left out: a wait may end at any moment.
-/

namespace CaenDaq

/-- Where the loop is. A wake-up is late when the deadline has passed, and the generation
is loaded again after a wake-up that was not. -/
inductive LoopPc
  | starting | testing | locking
  | loadingGen (again : Bool)
  | checkingRunning (late : Bool)
  | checkingGen (late : Bool)
  | releasing
  | asleep (notified : Bool)
  | relocking (late : Bool)
  | wokenUp | shortening | unlocking | leaving | taking | sampling | finished
  deriving DecidableEq, Repr

/-- Where a caller is: outside, or on its way through `setInterval` or `stop`. -/
inductive CallerPc
  | outside
  | exchanging (ms : ℤ)
  | publishing | bumping | unlocking | notifying
  | clearing | stopping | joining
  deriving DecidableEq, Repr

inductive MtxHolder (ι : Type)
  | loop
  | caller (i : ι)
  deriving DecidableEq

/-- The atomics of the collector, its mutex, and the locals of its threads. The generation
is kept as the number of its increments, of which the code sees the low 32 bits. -/
structure StatsCollector (ι : Type) where
  firstIntervalMs : ℤ
  intervalMs : ℤ
  intervalGen : ℕ := 0
  running : Bool := true
  cvMtx : Option (MtxHolder ι) := none
  loop : LoopPc := .starting
  wait : ℤ := 0
  gen : ℕ := 0
  caller : ι → CallerPc := fun _ => .outside

/-- What happens next: a step of the loop, the end of its sleep, a call, or a step of a
caller. -/
inductive StatsAction (ι : Type)
  | loop
  | wake (late : Bool)
  | setInterval (i : ι) (ms : ℤ)
  | stop (i : ι)
  | caller (i : ι)

namespace StatsCollector

def kMinIntervalMs : ℤ := 100
def kMaxIntervalMs : ℤ := 600000

def clampInterval (ms : ℤ) : ℤ :=
  if ms < kMinIntervalMs then kMinIntervalMs
  else if ms > kMaxIntervalMs then kMaxIntervalMs else ms

def start {ι : Type} (intervalMs firstIntervalMs : ℤ) : StatsCollector ι :=
  { firstIntervalMs := firstIntervalMs, intervalMs := clampInterval intervalMs }

/-- `notify_all` reaches the loop only while it sleeps. -/
def notifyAll : LoopPc → LoopPc
  | .asleep _ => .asleep true
  | pc => pc

variable {ι : Type}

/-- One step of the loop. It gets no further where the mutex is taken, and while it
sleeps. -/
def loopStep (s : StatsCollector ι) : Option (StatsCollector ι) :=
  match s.loop with
  | .starting =>
    some { s with wait := min (clampInterval s.firstIntervalMs) s.intervalMs, loop := .testing }
  | .testing => some { s with loop := if s.running then .locking else .finished }
  | .locking =>
    match s.cvMtx with
    | none => some { s with cvMtx := some .loop, loop := .loadingGen false }
    | some _ => none
  | .loadingGen _ => some { s with gen := s.intervalGen, loop := .checkingRunning false }
  | .checkingRunning late =>
    some { s with loop := if s.running then .checkingGen late else .wokenUp }
  | .checkingGen late =>
    some { s with
      loop := if s.intervalGen % 2 ^ 32 ≠ s.gen % 2 ^ 32 then .wokenUp
        else if late then .unlocking else .releasing }
  | .releasing => some { s with cvMtx := none, loop := .asleep false }
  | .asleep _ => none
  | .relocking late =>
    match s.cvMtx with
    | none => some { s with cvMtx := some .loop, loop := .checkingRunning late }
    | some _ => none
  | .wokenUp => some { s with loop := if s.running then .shortening else .unlocking }
  | .shortening => some { s with wait := min s.wait s.intervalMs, loop := .loadingGen true }
  | .unlocking => some { s with cvMtx := none, loop := .leaving }
  | .leaving => some { s with loop := if s.running then .taking else .finished }
  | .taking => some { s with wait := s.intervalMs, loop := .sampling }
  | .sampling => some { s with loop := .testing }
  | .finished => none

def callerStep [DecidableEq ι] (s : StatsCollector ι) (i : ι) : Option (StatsCollector ι) :=
  match s.caller i with
  | .outside => none
  | .exchanging ms =>
    some { s with
      intervalMs := ms
      caller := Function.update s.caller i (if s.intervalMs = ms then .outside else .publishing) }
  | .publishing =>
    match s.cvMtx with
    | none => some { s with
        cvMtx := some (.caller i), caller := Function.update s.caller i .bumping }
    | some _ => none
  | .bumping =>
    some { s with
      intervalGen := s.intervalGen + 1, caller := Function.update s.caller i .unlocking }
  | .unlocking =>
    some { s with cvMtx := none, caller := Function.update s.caller i .notifying }
  | .notifying =>
    some { s with loop := notifyAll s.loop, caller := Function.update s.caller i .outside }
  | .clearing =>
    some { s with
      running := false
      caller := Function.update s.caller i (if s.running then .stopping else .outside) }
  | .stopping =>
    some { s with loop := notifyAll s.loop, caller := Function.update s.caller i .joining }
  | .joining =>
    if s.loop = .finished then some { s with caller := Function.update s.caller i .outside }
    else none

/-- A call is entered by a caller outside. The sleep of the loop ends for a notification,
for its deadline, or for no reason. -/
def step [DecidableEq ι] (s : StatsCollector ι) : StatsAction ι → Option (StatsCollector ι)
  | .loop => loopStep s
  | .wake late =>
    match s.loop with
    | .asleep _ => some { s with loop := .relocking late }
    | _ => none
  | .setInterval i ms =>
    match s.caller i with
    | .outside =>
      some { s with caller := Function.update s.caller i (.exchanging (clampInterval ms)) }
    | _ => none
  | .stop i =>
    match s.caller i with
    | .outside => some { s with caller := Function.update s.caller i .clearing }
    | _ => none
  | .caller i => callerStep s i

end StatsCollector
end CaenDaq
