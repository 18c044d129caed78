import CaenDaq.BlockQueue
import CaenDaq.RawFileWriter
import CaenDaq.BoardInfo

/-!
# The orchestrator

A `Daq` as its caller sees it, through `addBoard`, `prepare`, `start` and `stop`. What
the boards and the file system answer comes in as an argument of each call.
-/

namespace CaenDaq

/-- How a board takes `open` and `configure`, and what it is found to be afterwards. -/
structure Preparation where
  opened : Bool := true
  configured : Bool := true
  info : BoardInfo := {}
  deriving DecidableEq

/-- How a board takes `start` or `arm`, and what it is found to be once armed. -/
structure Launch where
  launched : Bool := true
  info : BoardInfo := {}
  deriving DecidableEq

/-- One board of a `Daq`: the flags of its runner, what the digitizer reports of itself
and what the runner has noted of that. -/
structure BoardRunner where
  write : Bool
  running : Bool := false
  readerUp : Bool := false
  digitizer : BoardInfo := {}
  boardInfo : BoardInfo := {}
  deriving DecidableEq

namespace BoardRunner

def synchronised (r : BoardRunner) : Bool :=
  r.digitizer.acquisitionControl.toNat &&& 0x3 ≠ kStartModeSW

def prepare (o : Preparation) (r : BoardRunner) : Bool × BoardRunner :=
  if !o.opened then (false, r)
  else
    let r := { r with digitizer := o.info }
    if !o.configured then (false, r) else (true, { r with boardInfo := r.digitizer })

def start (o : Launch) (r : BoardRunner) : Bool × BoardRunner :=
  if r.running then (true, r)
  else if !o.launched then (false, { r with running := false })
  else (true, { r with running := true })

def arm (o : Launch) (r : BoardRunner) : Bool × BoardRunner :=
  if r.running then (true, r)
  else if !o.launched then (false, { r with running := false })
  else (true, { r with running := true, digitizer := o.info, boardInfo := o.info })

def launch (o : Launch) (r : BoardRunner) : Bool × BoardRunner :=
  if r.synchronised then r.arm o else r.start o

def setSyncRole (role : SyncRole) (r : BoardRunner) : BoardRunner :=
  { r with boardInfo := { r.boardInfo with syncRole := role } }

def startReader (r : BoardRunner) : BoardRunner := { r with readerUp := true }

def stop (r : BoardRunner) : BoardRunner :=
  if !r.running then r else { r with running := false, readerUp := false }

end BoardRunner

structure Preparations where
  board : ℕ → Preparation := fun _ => {}
  opening : Opening := {}

structure Launches where
  preparations : Preparations := {}
  board : ℕ → Launch := fun _ => {}
  swTrigger : Bool := true

/-- A specification of a board, as far as it matters to the file, and whether this build
can make a digitizer for it. -/
structure BoardSpec where
  write : Bool := true
  supported : Bool := true
  deriving DecidableEq, Repr

structure Daq where
  runners : List BoardRunner := []
  writeQueue : BlockQueue RawBlock := .ofCapacity 8192
  writer : Option RawFileWriter := none
  /-- The writer thread is up and has not left its loop. -/
  draining : Bool := false
  writerFailed : Bool := false
  anyWrite : Bool := false
  prepared : Bool := false
  running : Bool := false
  deriving DecidableEq

namespace Daq

variable (cfg : WriterConfig)

/-- The index of the board, or nothing. -/
def addBoard (spec : BoardSpec) (d : Daq) : Option ℕ × Daq :=
  if d.running || d.prepared then (none, d)
  else if !spec.supported then (none, d)
  else
    (some d.runners.length, { d with
      runners := d.runners ++ [{ write := spec.write }]
      anyWrite := d.anyWrite || spec.write })

def masterIndex (runners : List BoardRunner) : Option ℕ :=
  runners.findIdx? (fun r => r.synchronised && r.boardInfo.boardRegId = 0) <|>
    runners.findIdx? (·.synchronised)

def prepareRunners (o : ℕ → Preparation) (i : ℕ) : List BoardRunner → Bool × List BoardRunner
  | [] => (true, [])
  | r :: rs =>
    let p := r.prepare (o i)
    if !p.1 then (false, p.2 :: rs)
    else
      let q := prepareRunners o (i + 1) rs
      (q.1, p.2 :: q.2)

def prepare (o : Preparations) (d : Daq) : Bool × Daq :=
  if d.prepared then (true, d)
  else
    let p := prepareRunners o.board 0 d.runners
    let d := { d with runners := p.2 }
    if !p.1 then (false, d)
    else if d.anyWrite then
      let w := RawFileWriter.openFirst cfg o.opening {}
      if !w.1 then (false, { d with writer := none })
      else (true, { d with writer := some w.2, prepared := true })
    else (true, { d with prepared := true })

def roleOf (master : Option ℕ) (i : ℕ) (synced : Bool) : SyncRole :=
  if !synced then .independent else if master = some i then .master else .slave

/-- The boards are launched in turn; at the first that fails, it and those before it are
stopped. -/
def startRunners (o : ℕ → Launch) (master : Option ℕ) (i : ℕ) :
    List BoardRunner → Bool × List BoardRunner
  | [] => (true, [])
  | r :: rs =>
    let s := r.launch (o i)
    if !s.1 then (false, s.2.stop :: rs)
    else
      let r' := s.2.setSyncRole (roleOf master i r.synchronised)
      let t := startRunners o master (i + 1) rs
      (t.1, (if t.1 then r' else r'.stop) :: t.2)

/-- The queue is closed, the thread takes what is left of it and ends, the file is
closed. -/
def teardownWriter (d : Daq) : Daq :=
  { d with
    writeQueue := { d.writeQueue.close with items := [], bounded := Nat.zero_le _ }
    draining := false
    writer := d.writer.map (RawFileWriter.close {} {}) }

/-- A thread that finds the queue closed and drained leaves its loop at once. -/
def startWriter (d : Daq) : Daq :=
  { d with
    writerFailed := false
    draining := if d.anyWrite then !d.writeQueue.drained else d.draining }

def launchRunners (o : Launches) (d : Daq) : Bool × Daq :=
  let d := startWriter d
  let master := masterIndex d.runners
  let s := startRunners o.board master 0 d.runners
  let d := { d with runners := s.2 }
  if !s.1 then (false, teardownWriter d)
  else if master.isSome && !o.swTrigger then
    (false, teardownWriter { d with runners := d.runners.map (·.stop) })
  else (true, { d with runners := d.runners.map (·.startReader), running := true })

def start (o : Launches) (d : Daq) : Bool × Daq :=
  if d.running then (true, d)
  else
    let p := prepare cfg o.preparations d
    if !p.1 then p else launchRunners o p.2

def stop (d : Daq) : Daq :=
  if !d.running then d
  else { teardownWriter { d with runners := d.runners.map (·.stop) } with running := false }

inductive Call
  | addBoard (spec : BoardSpec)
  | prepare (o : Preparations)
  | start (o : Launches)
  | stop

def call (d : Daq) : Call → Daq
  | .addBoard spec => (d.addBoard spec).2
  | .prepare o => (d.prepare cfg o).2
  | .start o => (d.start cfg o).2
  | .stop => d.stop

def history (d : Daq) (calls : List Call) : Daq := calls.foldl (call cfg) d

def launching (d : Daq) : Call → Bool
  | .start o => !d.running && (d.prepare cfg o.preparations).1
  | _ => false

def launches (d : Daq) : List Call → ℕ
  | [] => 0
  | c :: calls => (if launching cfg d c then 1 else 0) + launches (call cfg d c) calls

structure Recording (d : Daq) : Prop where
  accepting : d.writeQueue.closed = false
  draining : d.draining = true
  writing : ∃ w, d.writer = some w ∧ w.closed = false ∧ w.file.isOpen = true

end Daq
end CaenDaq
