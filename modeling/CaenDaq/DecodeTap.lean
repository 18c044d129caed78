import CaenDaq.HitTap
import CaenDaq.Layered
import CaenDaq.OnlineSpectra
import CaenDaq.ReadoutSteps

/-!
# The decode tap

`DecodeStage` with its thread, and the readout with such a stage on some of its boards. The
reader of a board hands each block to the stage once it is done with the writer's queue; the
stage takes it if there is room at that moment.
-/

namespace CaenDaq

open OnlineSpectra

/-- Where the thread of a decode stage is: waiting for a block, on one of the steps that a
block takes, or at its end or not yet up. -/
inductive TapPc
  | popping
  | asking (block : RawBlock)
  | decoding (block : RawBlock) (tapping : Bool)
  | appending (batch : List Hit) (tapping : Bool) (n : ℕ)
  | returned
  deriving DecidableEq

/-- What the runner of a board has for its stage: the store, and the hits after the calls
that were made before. -/
structure Staging where
  info : BoardInfo
  decodeQueueCapacity : ℕ := 1024
  store : HistogramStore := {}
  calls : List TapCall := []

/-- The blocks that were handed to a stage are kept with what its queue made of each, those
that it has decoded, and what was called on the hits. -/
structure DecodeTap where
  queue : BlockQueue RawBlock
  running : Bool := false
  pc : TapPc := .returned
  decoder : AggregateDecoder
  store : HistogramStore
  hits : HitTap
  events : ℕ := 0
  fates : List (RawBlock × Bool) := []
  decoded : List RawBlock := []
  calls : List TapCall

namespace DecodeTap

open AggregateDecoder

/-- A stage as `BoardRunner::prepare` builds it. -/
def construct (st : Staging) : DecodeTap where
  queue := .ofCapacity st.decodeQueueCapacity
  decoder := registerBoardInfo {} st.info
  store := st.store
  hits := (Transducer.run HitTap.step {} st.calls).2
  calls := st.calls

/-- The thread is brought up. A queue that was closed stays closed. -/
def start (t : DecodeTap) : DecodeTap :=
  if t.running then t else { t with running := true, pc := .popping }

/-- A push that does not wait. -/
def submit (block : RawBlock) (t : DecodeTap) : DecodeTap :=
  let p := t.queue.push List.length true block
  { t with queue := p.2, fates := t.fates ++ [(block, p.1.getD false)] }

def pop (t : DecodeTap) : Option DecodeTap :=
  if t.pc = .popping then t.queue.pop.map fun p => { t with pc := .asking p.1, queue := p.2 }
  else none

/-- Whether the hits of a block are wanted is asked before it is decoded. -/
def ask (t : DecodeTap) : Option DecodeTap :=
  match t.pc with
  | .asking block => some { t with pc := .decoding block t.hits.enabled }
  | _ => none

variable (binning : Binning)

def decode (t : DecodeTap) : Option DecodeTap :=
  match t.pc with
  | .decoding block tapping =>
    match AggregateDecoder.decode t.decoder block with
    | .ok r => some { t with
        pc := .appending (HitTap.batchOf r.events) tapping r.count
        decoder := r.decoder
        store := r.events.foldl (HistogramStore.fill binning) t.store
        decoded := t.decoded ++ [block] }
    | .error _ => none
  | _ => none

def append (t : DecodeTap) : Option DecodeTap :=
  match t.pc with
  | .appending batch tapping n => some { t with
      pc := .popping
      hits := if tapping then t.hits.append batch else t.hits
      events := t.events + n
      calls := if tapping then t.calls ++ [.append batch] else t.calls }
  | _ => none

def leave (t : DecodeTap) : Option DecodeTap :=
  if t.pc = .popping ∧ t.queue.drained = true then some { t with pc := .returned } else none

/-- `stop` up to the join. -/
def close (t : DecodeTap) : Option DecodeTap :=
  if t.running then some { t with running := false, queue := t.queue.close } else none

/-- What the owner of the hits may call at any time. -/
def call (c : TapCall) (t : DecodeTap) : Option DecodeTap :=
  match c with
  | .append _ => none
  | c => some { t with hits := (HitTap.step t.hits c).2, calls := t.calls ++ [c] }

def stopped (t : DecodeTap) : Bool := !t.running && decide (t.pc = .returned)

end DecodeTap

/-- A stage between its construction and a start, or between a stop and a start: a board
keeps the one stage for all its runs. -/
structure DecodeStage where
  tap : DecodeTap
  running : tap.running = false
  returned : tap.pc = .returned
  sizes : ∀ block ∈ tap.queue.items, block.length < 2 ^ 32

def DecodeStage.construct (st : Staging) : DecodeStage where
  tap := .construct st
  running := rfl
  returned := rfl
  sizes _ h := absurd h List.not_mem_nil

theorem DecodeStage.start_eq (stage : DecodeStage) :
    stage.tap.start = { stage.tap with running := true, pc := .popping } := by
  rw [DecodeTap.start, stage.running, if_neg Bool.false_ne_true]

/-- A readout with decode stages. A block in `submitting` has been read and not yet handed to
the stage of its board. -/
structure Tapped (n : ℕ) where
  base : Readout n
  taps : Fin n → Option DecodeTap
  submitting : Fin n → Option RawBlock := fun _ => none

inductive TapAction (n : ℕ)
  | base (a : Action n)
  | submit (i : Fin n)
  | pop (i : Fin n)
  | ask (i : Fin n)
  | decode (i : Fin n)
  | append (i : Fin n)
  | leave (i : Fin n)
  | close (i : Fin n)
  | call (i : Fin n) (c : TapCall)

namespace Tapped

variable {n : ℕ}

/-- The board whose reader has to be done with `dispatch` before a step can be taken. -/
def waitsFor (s : Readout n) : Action n → Option (Fin n)
  | .check i => some i
  | .drainCheck _ =>
    match s.stopPc with
    | .draining i _ => if h : i < n then some ⟨i, h⟩ else none
    | _ => none
  | _ => none

/-- The board whose stage has to be stopped before. -/
def waitsForTap (s : Readout n) : Action n → Option (Fin n)
  | .release =>
    match s.stopPc with
    | .draining i _ => if h : i < n then some ⟨i, h⟩ else none
    | _ => none
  | _ => none

def blocked (s : Tapped n) (a : Action n) : Bool :=
  (waitsFor s.base a).any (fun i => (s.submitting i).isSome) ||
    (waitsForTap s.base a).any (fun i => (s.taps i).any (!·.stopped))

/-- The blocks that wait to be handed to the stages: one that was just read is added. -/
def received (s : Tapped n) : Action n → Fin n → Option RawBlock
  | .read i (some block) =>
    if block ≠ [] ∧ (s.taps i).isSome then Function.update s.submitting i (some block)
    else s.submitting
  | _ => s.submitting

variable (cfg : WriterConfig) (binning : Binning)

def baseStep (a : Action n) (s : Tapped n) : Option (Tapped n) :=
  if s.blocked a then none
  else (s.base.step cfg a).map fun base => { s with base := base, submitting := s.received a }

def submit (i : Fin n) (s : Tapped n) : Option (Tapped n) :=
  match s.submitting i, s.taps i with
  | some block, some t =>
    if (s.base.readers i).pc = .checking then
      some { s with
        taps := Function.update s.taps i (some (t.submit block))
        submitting := Function.update s.submitting i none }
    else none
  | _, _ => none

def tapStep (i : Fin n) (f : DecodeTap → Option DecodeTap) (s : Tapped n) : Option (Tapped n) :=
  (s.taps i).bind fun t => (f t).map fun t' =>
    { s with taps := Function.update s.taps i (some t') }

/-- `BoardRunner::stop` goes on to the stage when `drain` has returned. -/
def close (i : Fin n) (s : Tapped n) : Option (Tapped n) :=
  if s.base.isDraining i = true ∧ (s.base.readers i).pc = .returned then
    s.tapStep i DecodeTap.close
  else none

def step (s : Tapped n) : TapAction n → Option (Tapped n)
  | .base a => s.baseStep cfg a
  | .submit i => s.submit i
  | .pop i => s.tapStep i DecodeTap.pop
  | .ask i => s.tapStep i DecodeTap.ask
  | .decode i => s.tapStep i (DecodeTap.decode binning)
  | .append i => s.tapStep i DecodeTap.append
  | .leave i => s.tapStep i DecodeTap.leave
  | .close i => s.close i
  | .call i c => s.tapStep i (DecodeTap.call c)

/-- The moment `start` of a `Daq` has returned, which found the stages at rest. -/
def ofDaq (d : Daq) (stages : Fin d.runners.length → Option DecodeStage) :
    Tapped d.runners.length where
  base := .ofDaq d
  taps i := (stages i).map fun stage => stage.tap.start

end Tapped
end CaenDaq
