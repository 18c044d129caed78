import CaenDaq.AggregateDecoder
import CaenDaq.BoardStream

/-!
# The mock board

`MockDigitizer`: a board without hardware that makes up aggregates, of pseudo-random
content, at a given rate. The steady clock is the input of the calls that read it, in
nanoseconds.
-/

namespace CaenDaq

structure MockOptions where
  minBytes : ℕ := 4096
  maxBytes : ℕ := 65536
  ratePerSec : ℕ := 200
  waveforms : Bool := false
  traceSamples : ℕ := 128
  failEvery : ℕ := 0
  dpp : DppType := .psd
  boardId : ℕ := 0
  startMode : ℕ := kStartModeSW
  deriving DecidableEq, Repr

structure MockEvent where
  channel : ℕ
  timestamp : ℕ
  wave : List ℕ
  pileup : Bool
  energy : ℕ := 0
  qshort : ℕ := 0
  qlong : ℕ := 0
  deriving DecidableEq, Repr

structure MockDigitizer where
  opt : MockOptions
  opened : Bool := false
  running : Bool := false
  /-- Size of the scratch buffer in bytes. -/
  bufferSize : ℕ
  lfsr : Word := 0x1234567
  counter : ℕ := 0
  nextEmit : ℤ := 0
  started : ℤ := 0
  deriving DecidableEq, Repr

namespace MockDigitizer

def construct (opt : MockOptions) : MockDigitizer :=
  let opt := if opt.maxBytes < opt.minBytes then { opt with maxBytes := opt.minBytes } else opt
  { opt := opt, bufferSize := max opt.maxBytes 4096 }

/-- What the constructor puts into `info_`; nothing else writes it. -/
def info (s : MockDigitizer) : BoardInfo :=
  { modelName := "MOCK-V1730"
    channels := 16
    boardRegId := s.opt.boardId % 2 ^ 5
    dppType := s.opt.dpp
    nsPerSample := 2
    nsPerTimetag := 8
    acquisitionControl := BitVec.ofNat 32 (s.opt.startMode &&& 0x3)
    channelEnableMask := 0xFFFF }

def nextRand (lfsr : Word) : Word :=
  let lfsr := lfsr ^^^ (lfsr <<< 13)
  let lfsr := lfsr ^^^ (lfsr >>> 17)
  lfsr ^^^ (lfsr <<< 5)

def traced (o : MockOptions) : Bool := o.waveforms && decide (2 ≤ o.traceSamples)

def sampleCount (o : MockOptions) : ℕ := if traced o then o.traceSamples / 16 * 16 else 0

def traceWordCount (o : MockOptions) : ℕ := sampleCount o / 2

def evtSize (o : MockOptions) : ℕ := 2 + traceWordCount o

def coupleSize (o : MockOptions) (nEvents : ℕ) : ℕ := 2 + nEvents * evtSize o

def aggLen (o : MockOptions) (nEvents : ℕ) : ℕ := 4 + coupleSize o nEvents

/-- Flat baseline, quick rise, linear decay, within 14 bits. -/
def sample (idx : ℕ) : ℕ :=
  let v : ℤ :=
    if 20 ≤ idx ∧ idx < 30 then 1000 + (idx - 20) * 250
    else if 30 ≤ idx then 3500 - (idx - 30) * 30
    else 1000
  let v := if v < 300 then 300 else v
  let v := if v > 16383 then 16383 else v
  v.toNat

/-- The times of an aggregate: when it starts, and from one pair of events to the next. -/
structure EmitTimes where
  base : ℕ
  pairStep : ℕ
  deriving DecidableEq, Repr

def period (o : MockOptions) : ℕ := 1000000000 / if o.ratePerSec ≠ 0 then o.ratePerSec else 1

def emitTimes (s : MockDigitizer) (nEvents : ℕ) : EmitTimes :=
  let tickNs := if s.info.nsPerSample ≠ 0 then s.info.nsPerSample else 1
  let nowTicks := ((s.nextEmit - s.started) % 2 ^ 64).toNat / tickNs
  let spanTicks := period s.opt / tickNs
  let pairs := (nEvents + 1) / 2
  { base := if nowTicks > spanTicks then nowTicks - spanTicks else 0
    pairStep := if spanTicks / pairs ≠ 0 then spanTicks / pairs else 1 }

/-- How long after its partner a hit of channel 1 comes. -/
def hitDelay (t : EmitTimes) (lfsr : Word) : ℕ × Word :=
  let r := nextRand lfsr
  if r.toNat % 3 = 0 then (10, r)
  else
    let r := nextRand r
    (1 + r.toNat % (t.pairStep / 2 + 1), r)

def noise (bound : ℕ) : ℕ → Word → ℕ × Word
  | 0, lfsr => (0, lfsr)
  | n + 1, lfsr =>
    let r := nextRand lfsr
    let t := noise bound n r
    (r.toNat % bound + t.1, t.2)

/-- The values of an event: an energy, or a long and a short charge. -/
def fabricateValues (dpp : DppType) (event : MockEvent) (lfsr : Word) : MockEvent × Word :=
  if dpp = .pha then
    let n := noise 1600 2 lfsr
    ({ event with energy := (8000 + n.1) % 2 ^ 15 }, n.2)
  else
    let n := noise 800 3 lfsr
    let qlong := (4800 + n.1) % 2 ^ 16
    ({ event with qshort := qlong / 2 % 2 ^ 15, qlong := qlong }, n.2)

def fabricateEvent (o : MockOptions) (t : EmitTimes) (e : ℕ) (lfsr : Word) : MockEvent × Word :=
  let chBit := e % 2
  let delay := if chBit = 1 then hitDelay t lfsr else (0, lfsr)
  let pileup := nextRand delay.2
  fabricateValues o.dpp
    { channel := chBit
      -- the counter has 31 bits, so what the sum wraps at does not matter
      timestamp := (t.base + e / 2 * t.pairStep + delay.1) % 2 ^ 31
      wave := (List.range (sampleCount o)).map sample
      pileup := pileup.toNat % 20 = 0 } pileup

def fabricateEvents (o : MockOptions) (t : EmitTimes) : ℕ → ℕ → Word → List MockEvent × Word
  | 0, _, lfsr => ([], lfsr)
  | n + 1, e, lfsr =>
    let r := fabricateEvent o t e lfsr
    let rest := fabricateEvents o t n (e + 1) r.2
    (r.1 :: rest.1, rest.2)

structure Fabricated where
  fail : Bool
  events : List MockEvent
  lfsr : Word
  deriving DecidableEq, Repr

def fabricate (s : MockDigitizer) : Fabricated :=
  let r := nextRand s.lfsr
  let nEvents := 8 + r.toNat % 24
  let f := if s.opt.failEvery ≠ 0 then nextRand r else r
  let events := fabricateEvents s.opt (emitTimes s nEvents) nEvents 0 f
  { fail := s.opt.failEvery ≠ 0 && f.toNat % s.opt.failEvery = 0
    events := events.1
    lfsr := events.2 }

def word (n : ℕ) : Word := BitVec.ofNat 32 n

def traceWord (k : ℕ) : Word :=
  word ((sample (2 * k) &&& 0x3FFF) ||| (sample (2 * k + 1) &&& 0x3FFF) <<< 16)

def dataWord (dpp : DppType) (x : MockEvent) : Word :=
  if dpp = .pha then word (x.energy ||| x.pileup.toNat <<< 15)
  else word (x.qshort ||| x.pileup.toNat <<< 15 ||| x.qlong <<< 16)

def eventWords (o : MockOptions) (x : MockEvent) : List Word :=
  word (x.channel <<< 31 ||| (x.timestamp &&& 0x7FFFFFFF)) ::
    ((List.range (traceWordCount o)).map traceWord ++ [dataWord o.dpp x])

/-- Charge and time stamp are recorded, and a trace if waveforms are on. -/
def formWord (o : MockOptions) : Word :=
  let fmt := 1 <<< 30 ||| 1 <<< 29
  word (if traced o then fmt ||| (1 <<< 27 ||| (sampleCount o / 8 &&& 0xFFFF)) else fmt)

def aggregateWords (s : MockDigitizer) (f : Fabricated) : List Word :=
  let nEvents := f.events.length
  word (0xA0000000 ||| (aggLen s.opt nEvents &&& 0x0FFFFFFF)) ::
    word ((s.info.boardRegId &&& 0x1F) <<< 27 ||| f.fail.toNat <<< 26 ||| 0x01) ::
    word (s.counter &&& 0x7FFFFF) :: word s.counter ::
    word (coupleSize s.opt nEvents) :: formWord s.opt :: f.events.flatMap (eventWords s.opt)

def openBoard (s : MockDigitizer) : MockDigitizer := { s with opened := true }

/-- `start`, and `arm`, which is the same for a board that waits for nothing. -/
def start (s : MockDigitizer) (now : ℤ) : MockDigitizer :=
  { s with running := true, counter := 0, nextEmit := now, started := now }

def stop (s : MockDigitizer) : MockDigitizer := { s with running := false }

def close (s : MockDigitizer) : MockDigitizer := { s with opened := false }

def emission (s : MockDigitizer) : Fabricated :=
  fabricate { s with nextEmit := s.nextEmit + period s.opt }

/-- The buffer that is emitted, none if there is no data. -/
def read (s : MockDigitizer) (now : ℤ) : Option (List (BitVec 8)) × MockDigitizer :=
  if !s.running then (none, s)
  else if now < s.nextEmit then (none, s)
  else
    let f := emission s
    (some (BoardStream.bytesOf (aggregateWords s f)),
      { s with
        nextEmit := s.nextEmit + period s.opt
        bufferSize := max s.bufferSize (aggLen s.opt f.events.length * 4)
        lfsr := f.lfsr
        counter := (s.counter + 1) % 2 ^ 64 })

end MockDigitizer
end CaenDaq
