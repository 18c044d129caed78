import CaenDaq.Transition
import CaenDaq.Daq
import CaenDaq.WriterLoop

/-!
# A run of several threads

One reader for each board, the writer, and the thread that calls `Daq::stop`, over the
shared queue. A step of the system is a step of one of them up to its next access to
something shared; which comes next, what a board delivers and when a wait is over is
up to the schedule. The thread of the statistics, which `Daq::stop` joins before all else,
touches nothing of this and is left out.
-/

namespace CaenDaq

/-- Where the thread that reads a board is: `checking` at the head of its loop, and
from there through `read` and `dispatch` and back. -/
inductive ReaderPc
  | checking | reading
  | pushing (block : RawBlock)
  | counting (block : RawBlock) (accepted : Bool)
  | returned
  deriving DecidableEq, Repr

/-- A board's runner during the run, with the blocks that were read from it and what the
queue made of each, in the order of the reads. -/
structure Reader where
  write : Bool
  running : Bool
  pc : ReaderPc := .checking
  buffersRead : ℕ := 0
  bytesRead : ℕ := 0
  bytesWritten : ℕ := 0
  blocksDropped : ℕ := 0
  commErrors : ℕ := 0
  blocks : List RawBlock := []
  fates : List (RawBlock × Bool) := []
  deriving DecidableEq, Repr

namespace Reader

/-- The first half of `dispatch`: only a board that writes goes on to the queue. -/
def dispatch (block : RawBlock) (r : Reader) : Reader :=
  { r with
    buffersRead := r.buffersRead + 1
    bytesRead := r.bytesRead + block.length
    blocks := r.blocks ++ [block]
    pc := if r.write then .pushing block else .checking }

/-- A round of `readerLoop`: the board fails to answer, has nothing, or has a block. -/
def readLoop (answer : Option RawBlock) (r : Reader) : Reader :=
  match answer with
  | none => { r with commErrors := r.commErrors + 1, pc := .checking }
  | some block => if block.length = 0 then { r with pc := .checking } else dispatch block r

/-- A round of `drain`, which ends at the first read that brings nothing. -/
def readDrain (answer : Option RawBlock) (r : Reader) : Reader :=
  match answer with
  | none => { r with pc := .returned }
  | some block => if block.length = 0 then { r with pc := .returned } else dispatch block r

def count (block : RawBlock) (accepted : Bool) (r : Reader) : Reader :=
  if accepted then { r with bytesWritten := r.bytesWritten + block.length, pc := .checking }
  else { r with blocksDropped := r.blocksDropped + 1, pc := .checking }

end Reader

inductive WriterPc (n : ℕ)
  | popping
  | holding (block : Fin n × RawBlock)
  | returned
  deriving DecidableEq, Repr

/-- Where `Daq::stop` is: not called, about to stop a board, waiting for its reader,
reading what the board still holds, waiting for the writer, or done. -/
inductive StopPc
  | notCalled
  | stopping (board : ℕ)
  | joining (board : ℕ)
  | draining (board : ℕ) (reads : ℕ)
  | joiningWriter
  | stopped
  deriving DecidableEq, Repr

/-- The whole system. Each block in the queue, in the writer's hand and in `written` is
kept with the board it comes from, which the code does not do. -/
structure Readout (n : ℕ) where
  readers : Fin n → Reader
  queue : BlockQueue (Fin n × RawBlock)
  writerPc : WriterPc n
  loop : WriterLoop
  stopPc : StopPc := .notCalled
  written : List (Fin n × RawBlock) := []

inductive Action (n : ℕ)
  | check (i : Fin n)
  | read (i : Fin n) (answer : Option RawBlock)
  | push (i : Fin n) (timedOut : Bool)
  | count (i : Fin n)
  | pop
  | write (turn : Turn)
  | idle (turn : Turn)
  | writerReturn
  | stop
  | stopBoard
  | join
  | drainCheck (late : Bool)
  | release
  | joinWriter (flush close : Transfer)

namespace Readout

variable {n : ℕ}

def kMaxReads : ℕ := 1000

/-- The board that the stopping thread reads itself. -/
def isDraining (s : Readout n) (i : Fin n) : Bool :=
  match s.stopPc with
  | .draining j _ => j = i
  | _ => false

def setReader (i : Fin n) (r : Reader) (s : Readout n) : Readout n :=
  { s with readers := Function.update s.readers i r }

def check (i : Fin n) (s : Readout n) : Option (Readout n) :=
  let r := s.readers i
  if r.pc = .checking ∧ s.isDraining i = false then
    some (s.setReader i
      { r with pc := if r.running && !s.loop.writerFailed then .reading else .returned })
  else none

def read (i : Fin n) (answer : Option RawBlock) (s : Readout n) : Option (Readout n) :=
  let r := s.readers i
  if r.pc = .reading then
    some (s.setReader i (if s.isDraining i then r.readDrain answer else r.readLoop answer))
  else none

/-- A push that gets no answer goes on waiting. -/
def push (i : Fin n) (timedOut : Bool) (s : Readout n) : Option (Readout n) :=
  let r := s.readers i
  match r.pc with
  | .pushing block =>
    let p := s.queue.push (fun b => b.2.length) timedOut (i, block)
    match p.1 with
    | none => some s
    | some accepted =>
      some { s.setReader i
          { r with pc := .counting block accepted, fates := r.fates ++ [(block, accepted)] } with
        queue := p.2 }
  | _ => none

def count (i : Fin n) (s : Readout n) : Option (Readout n) :=
  let r := s.readers i
  match r.pc with
  | .counting block accepted => some (s.setReader i (r.count block accepted))
  | _ => none

def pop (s : Readout n) : Option (Readout n) :=
  if s.writerPc = .popping then
    s.queue.pop.map fun p => { s with writerPc := .holding p.1, queue := p.2 }
  else none

variable (cfg : WriterConfig)

def write (turn : Turn) (s : Readout n) : Option (Readout n) :=
  match s.writerPc with
  | .holding block =>
    let loop := WriterLoop.turn cfg s.loop { turn with block := some block.2 }
    some { s with
      loop := loop
      writerPc := if loop.writerFailed then .returned else .popping
      written := if loop.writerFailed then s.written else s.written ++ [block] }
  | _ => none

def idle (turn : Turn) (s : Readout n) : Option (Readout n) :=
  if s.writerPc = .popping ∧ s.queue.items = [] ∧ s.queue.closed = false then
    some { s with loop := WriterLoop.turn cfg s.loop { turn with block := none } }
  else none

def writerReturn (s : Readout n) : Option (Readout n) :=
  if s.writerPc = .popping ∧ s.queue.drained = true then some { s with writerPc := .returned }
  else none

def stop (s : Readout n) : Option (Readout n) :=
  if s.stopPc = .notCalled then some { s with stopPc := .stopping 0 } else none

/-- `BoardRunner::stop` up to the join, or after the last board the close of the queue. -/
def stopBoard (s : Readout n) : Option (Readout n) :=
  match s.stopPc with
  | .stopping i =>
    if h : i < n then
      let r := s.readers ⟨i, h⟩
      if r.running then
        some { s.setReader ⟨i, h⟩ { r with running := false } with stopPc := .joining i }
      else some { s with stopPc := .stopping (i + 1) }
    else some { s with queue := s.queue.close, stopPc := .joiningWriter }
  | _ => none

/-- The reader has returned, and the stopping thread reads on in its place. -/
def join (s : Readout n) : Option (Readout n) :=
  match s.stopPc with
  | .joining i =>
    if h : i < n then
      let r := s.readers ⟨i, h⟩
      if r.pc = .returned then
        some { s.setReader ⟨i, h⟩ { r with pc := .checking } with stopPc := .draining i 0 }
      else none
    else none
  | _ => none

/-- The head of the loop in `drain`; it ends when the time for it is over. -/
def drainCheck (late : Bool) (s : Readout n) : Option (Readout n) :=
  match s.stopPc with
  | .draining i reads =>
    if h : i < n then
      let r := s.readers ⟨i, h⟩
      if r.pc = .checking then
        if reads < kMaxReads ∧ late = false then
          some { s.setReader ⟨i, h⟩ { r with pc := .reading } with
            stopPc := .draining i (reads + 1) }
        else some (s.setReader ⟨i, h⟩ { r with pc := .returned })
      else none
    else none
  | _ => none

def release (s : Readout n) : Option (Readout n) :=
  match s.stopPc with
  | .draining i _ =>
    if h : i < n then
      if (s.readers ⟨i, h⟩).pc = .returned then some { s with stopPc := .stopping (i + 1) }
      else none
    else none
  | _ => none

def joinWriter (flush close : Transfer) (s : Readout n) : Option (Readout n) :=
  if s.stopPc = .joiningWriter ∧ s.writerPc = .returned then
    some { s with loop := s.loop.teardown flush close, stopPc := .stopped }
  else none

def step (s : Readout n) : Action n → Option (Readout n)
  | .check i => s.check i
  | .read i answer => s.read i answer
  | .push i timedOut => s.push i timedOut
  | .count i => s.count i
  | .pop => s.pop
  | .write turn => s.write cfg turn
  | .idle turn => s.idle cfg turn
  | .writerReturn => s.writerReturn
  | .stop => s.stop
  | .stopBoard => s.stopBoard
  | .join => s.join
  | .drainCheck late => s.drainCheck late
  | .release => s.release
  | .joinWriter flush close => s.joinWriter flush close

/-- The system at the moment `start` of a `Daq` has returned. Without a board that
writes there is no writer. -/
def ofDaq (d : Daq) : Readout d.runners.length where
  readers i := { write := d.runners[i].write, running := d.runners[i].running }
  queue := { capacity := d.writeQueue.capacity, closed := d.writeQueue.closed, bounded := Nat.zero_le _ }
  writerPc := if d.draining then .popping else .returned
  loop := { writer := d.writer.getD {}, writerFailed := d.writerFailed }

end Readout
end CaenDaq
