import CaenDaq.ClockSync
import CaenDaq.CallOrder
import CaenDaq.Recording

/-!
# The calls that a run makes to its boards

`Daq` once more, now with every call that it makes to a board and every reader that it
brings up, in their order. The state that comes with the calls is that of `Daq` itself.
-/

namespace CaenDaq

/-- A call to a board with what it returned, where that is a success or a failure, or
the start of its reader. -/
inductive DeviceCall
  | openBoard (board : ℕ) (ok : Bool)
  | configure (board : ℕ) (ok : Bool)
  | register (access : RegisterAccess)
  | start (board : ℕ) (ok : Bool)
  | arm (board : ℕ) (ok : Bool)
  | sendSWTrigger (board : ℕ) (ok : Bool)
  | startReader (board : ℕ)
  | stop (board : ℕ)
  | read (board : ℕ)
  | close (board : ℕ)
  deriving DecidableEq, Repr

/-- How a read after the stop goes: whether there is still time for it, and what it
brings, if it does not fail. -/
structure DrainRead where
  inTime : Bool := true
  size : Option ℕ := none
  deriving DecidableEq, Repr

/-- What the boards answer to the calls whose outcome does not change the course of the
others: register accesses, and the reads after a stop by board and number. -/
structure Answers where
  register : ℕ → RegisterReply := fun _ => {}
  drain : ℕ → ℕ → DrainRead := fun _ _ => {}

namespace DeviceCalls

open Daq

def kMaxReads : ℕ := 1000

def drainFrom (board : ℕ) (answer : ℕ → DrainRead) (n : ℕ) : ℕ → List DeviceCall
  | 0 => []
  | rounds + 1 =>
    if !(answer n).inTime then []
    else if (answer n).size.getD 0 = 0 then [.read board]
    else .read board :: drainFrom board answer (n + 1) rounds

def drain (board : ℕ) (answer : ℕ → DrainRead) : List DeviceCall :=
  drainFrom board answer 0 kMaxReads

variable (a : Answers)

def stopCalls (board : ℕ) (r : BoardRunner) : List DeviceCall :=
  if !r.running then [] else .stop board :: (drain board (a.drain board) ++ [.close board])

def stopAllCalls (runners : List BoardRunner) : List DeviceCall :=
  runners.zipIdx.flatMap fun r => stopCalls a r.2 r.1

def prepareCalls (o : ℕ → Preparation) (board : ℕ) : List DeviceCall :=
  .openBoard board (o board).opened ::
    (if !(o board).opened then [] else [.configure board (o board).configured])

def prepareRunnersCalls (o : ℕ → Preparation) (i : ℕ) : List BoardRunner → List DeviceCall
  | [] => []
  | r :: rs =>
    prepareCalls o i ++
      (if !(r.prepare (o i)).1 then [] else prepareRunnersCalls o (i + 1) rs)

/-- A prepared `Daq` is not prepared again. -/
def prepareDaqCalls (o : Preparations) (d : Daq) : List DeviceCall :=
  if d.prepared then [] else prepareRunnersCalls o.board 0 d.runners

def alignCalls (runners : List BoardRunner) : List DeviceCall :=
  let master := masterIndex runners
  let order := ClockSync.clockChainOrder (runners.map (·.boardInfo.acquisitionControl)) master
  let chain := order.map fun i =>
    ({ board := i, master := master = some i } : ClockSync.ClockChainBoard)
  if chain.length < 2 then []
  else (ClockSync.synchroniseClockChain a.register {} chain).2.map fun e => .register e.1

/-- `BoardRunner::start` or `BoardRunner::arm`, neither of which is repeated. -/
def launchCall (o : ℕ → Launch) (board : ℕ) (r : BoardRunner) : DeviceCall :=
  if r.synchronised then .arm board (o board).launched else .start board (o board).launched

def launchCalls (o : ℕ → Launch) (board : ℕ) (r : BoardRunner) : List DeviceCall :=
  if r.running then [] else [launchCall o board r]

/-- The loop of `Daq::start` over the boards, `done` before the `i`-th: all are launched,
or those up to the first that fails are stopped again. -/
def launchLoop (o : ℕ → Launch) (master : Option ℕ) (done : List BoardRunner) (i : ℕ) :
    List BoardRunner → (Bool × List BoardRunner) × List DeviceCall
  | [] => ((true, done), [])
  | r :: rs =>
    let s := r.launch (o i)
    if !s.1 then
      ((false, (done ++ [s.2]).map (·.stop) ++ rs),
        launchCalls o i r ++ stopAllCalls a (done ++ [s.2]))
    else
      let r' := s.2.setSyncRole (roleOf master i r.synchronised)
      let t := launchLoop o master (done ++ [r']) (i + 1) rs
      (t.1, launchCalls o i r ++ t.2)

def launchAll (o : Launches) (d : Daq) : (Bool × Daq) × List DeviceCall :=
  let aligned := alignCalls a d.runners
  let d := startWriter d
  let master := masterIndex d.runners
  let l := launchLoop a o.board master [] 0 d.runners
  let d := { d with runners := l.1.2 }
  if !l.1.1 then ((false, teardownWriter d), aligned ++ l.2)
  else
    let trigger := master.toList.map fun m => DeviceCall.sendSWTrigger m o.swTrigger
    if master.isSome && !o.swTrigger then
      ((false, teardownWriter { d with runners := d.runners.map (·.stop) }),
        aligned ++ l.2 ++ trigger ++ stopAllCalls a d.runners)
    else
      ((true, { d with runners := d.runners.map (·.startReader), running := true }),
        aligned ++ l.2 ++ trigger ++ (List.range d.runners.length).map .startReader)

def startDaq (cfg : WriterConfig) (o : Launches) (d : Daq) : (Bool × Daq) × List DeviceCall :=
  if d.running then ((true, d), [])
  else
    let p := prepare cfg o.preparations d
    let calls := prepareDaqCalls o.preparations d
    if !p.1 then (p, calls)
    else
      let l := launchAll a o p.2
      (l.1, calls ++ l.2)

def stopDaq (d : Daq) : Daq × List DeviceCall :=
  if !d.running then (d, [])
  else
    ({ teardownWriter { d with runners := d.runners.map (·.stop) } with running := false },
      stopAllCalls a d.runners)

theorem launchLoop_state (o : ℕ → Launch) (master : Option ℕ) (done : List BoardRunner) (i : ℕ)
    (rs : List BoardRunner) :
    (launchLoop a o master done i rs).1 = ((startRunners o master i rs).1,
      (if (startRunners o master i rs).1 then done else done.map (·.stop)) ++
        (startRunners o master i rs).2) := by
  induction rs generalizing done i with
  | nil => simp [launchLoop, startRunners]
  | cons r rs ih =>
    cases hlaunch : (r.launch (o i)).1 with
    | false => simp [launchLoop, startRunners, hlaunch]
    | true =>
      simp only [launchLoop, startRunners, hlaunch, Bool.not_true, Bool.false_eq_true, if_false, ih]
      cases hrest : (startRunners o master (i + 1) rs).1 <;> simp

theorem launchAll_state (o : Launches) (d : Daq) : (launchAll a o d).1 = launchRunners o d := by
  simp only [launchAll, launchRunners, launchLoop_state]
  cases hok : (startRunners o.board (masterIndex (startWriter d).runners) 0
    (startWriter d).runners).1 with
  | false => simp
  | true =>
    simp only [Bool.not_true, Bool.false_eq_true, if_false, if_true, List.nil_append]
    split <;> rfl

theorem startDaq_state (cfg : WriterConfig) (o : Launches) (d : Daq) :
    (startDaq a cfg o d).1 = d.start cfg o := by
  simp only [startDaq, start]
  split
  · rfl
  · split
    · rfl
    · exact launchAll_state a o _

theorem stopDaq_state (d : Daq) : (stopDaq a d).1 = d.stop := by
  simp only [stopDaq, Daq.stop]
  split
  · rfl
  · rfl

end DeviceCalls
end CaenDaq
