import CaenDaq.BoardInfo

/-!
# Alignment of the clock chain

The boards that take their clock from another one are told to re-align, the master
first, and are then watched until they are ready. The accesses to their registers are
kept in a log; the `n`-th of them gets the `n`-th answer. The waiting between them leaves
no trace here but for the time-out of the poll.
-/

namespace CaenDaq

/-- An access to a register of a board, the board by its index in the run. -/
inductive RegisterAccess
  | write (board address : ℕ) (value : Word)
  | read (board address : ℕ)
  deriving DecidableEq, Repr

structure RegisterReply where
  ok : Bool := true
  value : Word := 0
  deriving DecidableEq, Repr

abbrev RegisterLog := List (RegisterAccess × RegisterReply)

namespace ClockSync

def kRegSoftwareClockSync : ℕ := 0x813C
def kRegAcquisitionStatus : ℕ := 0x8104
def kRegVmeStatus : ℕ := 0xEF04

def kAcqStatusExternalClock : Word := 1 <<< 5
def kAcqStatusNoPllUnlock : Word := 1 <<< 7
def kAcqStatusBoardReady : Word := 1 <<< 8
def kAcqControlExternalClock : Word := 1 <<< 6

structure ClockChainBoard where
  board : ℕ
  master : Bool := false
  deriving DecidableEq, Repr

/-- The poll makes progress: a step of it takes some time. The `int` options are taken as
natural numbers, which they are like as long as `readyTimeoutMs + pollMs` does not overflow. -/
structure ClockSyncOptions where
  readyTimeoutMs : ℕ := 2000
  pollMs : ℕ := 50
  pollMs_pos : 0 < pollMs := by decide

structure ClockLockState where
  master : Bool := false
  synced : Bool := false
  statusRead : Bool := false
  ready : Bool := false
  stable : Bool := false
  external : Bool := false
  deriving DecidableEq, Repr

def ClockLockState.ok (s : ClockLockState) : Bool :=
  s.synced && s.statusRead && s.ready && s.stable && (s.master || s.external)

def selectsExternalClock (acq : Word) : Bool := acq &&& kAcqControlExternalClock ≠ 0

/-- The boards of the chain as indices: the master first, then those on an external
clock in board order. Empty if there is no such board. -/
def clockChainOrder (acquisitionControl : List Word) (masterIndex : Option ℕ) : List ℕ :=
  if !acquisitionControl.any selectsExternalClock then []
  else
    let master := masterIndex.filter (· < acquisitionControl.length)
    master.toList ++ (List.range acquisitionControl.length).filter fun i =>
      master ≠ some i && selectsExternalClock (acquisitionControl.getD i 0)

variable (world : ℕ → RegisterReply)

def access (a : RegisterAccess) (log : RegisterLog) : RegisterReply × RegisterLog :=
  let r := world log.length
  (r, log ++ [(a, r)])

def realign : List ClockChainBoard → RegisterLog → List ClockLockState × RegisterLog
  | [], log => ([], log)
  | b :: chain, log =>
    let r := access world (.write b.board kRegSoftwareClockSync 1) log
    let t := realign chain r.2
    ({ master := b.master, synced := r.1.ok } :: t.1, t.2)

/-- The wait for Board Ready: whether the status was ever read, and the last of it. -/
def pollReady (options : ClockSyncOptions) (board waited : ℕ) (statusRead : Bool) (status : Word)
    (log : RegisterLog) : (Bool × Word) × RegisterLog :=
  let r := access world (.read board kRegAcquisitionStatus) log
  let statusRead := statusRead || r.1.ok
  let status := if r.1.ok then r.1.value else status
  if r.1.ok && status &&& kAcqStatusBoardReady ≠ 0 then ((statusRead, status), r.2)
  else if _h : options.readyTimeoutMs ≤ waited then ((statusRead, status), r.2)
  else pollReady options board (waited + options.pollMs) statusRead status r.2
termination_by options.readyTimeoutMs - waited
decreasing_by
  have hpos := options.pollMs_pos
  omega

/-- A board is watched for a while, from a read of 0xEF04 to another of its status. -/
def watch (options : ClockSyncOptions) (b : ClockChainBoard) (s : ClockLockState)
    (log : RegisterLog) : ClockLockState × RegisterLog :=
  let p := pollReady world options b.board 0 false 0 log
  if !p.1.1 then (s, p.2)
  else
    let ready := p.1.2 &&& kAcqStatusBoardReady ≠ 0
    let ignored := access world (.read b.board kRegVmeStatus) p.2
    let r := access world (.read b.board kRegAcquisitionStatus) ignored.2
    if r.1.ok then
      ({ s with
        statusRead := true
        ready := r.1.value &&& kAcqStatusBoardReady ≠ 0
        stable := r.1.value &&& kAcqStatusNoPllUnlock ≠ 0
        external := r.1.value &&& kAcqStatusExternalClock ≠ 0 }, r.2)
    else ({ s with statusRead := false, ready := ready }, r.2)

def watchAll (options : ClockSyncOptions) :
    List (ClockChainBoard × ClockLockState) → RegisterLog → List ClockLockState × RegisterLog
  | [], log => ([], log)
  | (b, s) :: rest, log =>
    let r := watch world options b s log
    let t := watchAll options rest r.2
    (r.1 :: t.1, t.2)

def synchroniseClockChain (options : ClockSyncOptions) (chain : List ClockChainBoard) :
    List ClockLockState × RegisterLog :=
  let r := realign world chain []
  watchAll world options (chain.zip r.1) r.2

end ClockSync
end CaenDaq
