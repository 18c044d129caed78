import CaenDaq.AggregateDecoder

/-!
# What a readout buffer means

The decoder as a cascade of transducers over word lists, without offsets: a buffer
falls into segments, a board aggregate into channel aggregates, a channel aggregate
into events of equal size. How a buffer falls apart never depends on the decoder's
state; the state only enters when an event is given its time. The walk of the
source is shown to be this cascade in `DecoderRefinement`.
-/

namespace CaenDaq
namespace AggregateStream

open Checked Transducer DataFrame AggregateDecoder

/-- What the walk finds in a buffer, filler words left out. -/
inductive Segment
  | badLength
  | aggregate (words : List Word)
  deriving DecidableEq, Repr

def isSync (w : Word) : Bool := w.toNat / 2 ^ 28 = 0xA

def aggLength (sync : Word) : ℕ := sync.toNat % 2 ^ 28

def segments (words : List Word) : List Segment :=
  match words with
  | [] => []
  | sync :: rest =>
    if rest.length + 1 < kAggHeaderWords then []
    else if !isSync sync then segments rest
    else if _h : aggLength sync < kAggHeaderWords then .badLength :: segments rest
    else if rest.length + 1 < aggLength sync then []
    else .aggregate ((sync :: rest).take (aggLength sync)) ::
      segments ((sync :: rest).drop (aggLength sync))
termination_by words.length
decreasing_by
  all_goals simp only [List.length_cons, List.length_drop, kAggHeaderWords] at *
  all_goals omega

def headWord (words : List Word) : Word := words.getD 1 0

def boardOf (words : List Word) : ℕ := (headWord words).toNat / 2 ^ 27

def failOf (words : List Word) : Bool := bitAt (headWord words) 26

def maskOf (words : List Word) : ℕ := (headWord words).toNat % 2 ^ 8

/-- What the couple loop finds in the words after a board-aggregate header. -/
inductive CoupleSegment
  | channel (couple : ℕ) (form : Word) (payload : List Word)
  | truncated
  | malformed (form : Word)
  deriving DecidableEq, Repr

/-- The channel aggregates of the given couples; the first bad one ends the list. -/
def coupleSegments (dpp : Firmware) (name : String) : List ℕ → List Word → List CoupleSegment
  | [], _ => []
  | _ :: _, [] => [.truncated]
  | _ :: _, [_] => [.truncated]
  | couple :: couples, size :: form :: rest =>
    let n := extractBits size (format (tables dpp name) .Size (0, 31))
    if n < 2 ∨ rest.length + 2 < n ∨ (resolveLayout dpp name form).evtSize = 0 then
      [.malformed form]
    else
      .channel couple form (rest.take (n - 2)) ::
        coupleSegments dpp name couples (rest.drop (n - 2))

/-- The events of a payload, each `evtSize` words; a remainder makes none. -/
def eventsOf (layout : DataLayout) (payload : List Word) : List (List Word) :=
  (List.range (payload.length / layout.evtSize)).map fun i =>
    slice payload (i * layout.evtSize) layout.evtSize

def timeWordOf (layout : DataLayout) (words : List Word) : Word :=
  if layout.hasTS then words.getD 0 0 else 0

def dataWordOf (u : Unpacker) (layout : DataLayout) (words : List Word) : Word :=
  if u.hasData layout then words.getD (layout.evtSize - 1) 0 else 0

def extrasWordOf (u : Unpacker) (layout : DataLayout) (words : List Word) : Word :=
  if layout.hasExtras then
    words.getD (layout.evtSize - 1 - (if u.hasData layout then 1 else 0)) 0 else 0

def traceWordsOf (layout : DataLayout) (words : List Word) : List Word :=
  if layout.hasTrace then slice words (if layout.hasTS then 1 else 0) (layout.numSamples / 2)
  else []

def lacking (u : Unpacker) (layout : DataLayout) : Bool := !layout.hasTS || !u.hasData layout

def extensionOf (u : Unpacker) (layout : DataLayout) (words : List Word) : Extension :=
  u.extension layout (extrasWordOf u layout words)

/-- An event before it is given a time: everything that its words alone decide. -/
def untimed (u : Unpacker) (board couple : ℕ) (layout : DataLayout) (words : List Word) :
    DecodedEvent :=
  { u.fields layout board (channelOf layout couple (timeWordOf layout words))
      (timeWordOf layout words) (dataWordOf u layout words) (extensionOf u layout words) with
    wave := traceSamples layout (traceWordsOf layout words) }

def widthOf (u : Unpacker) (layout : DataLayout) (words : List Word) : ℕ :=
  layout.tsBits + (extensionOf u layout words).extendedBits

def timed (u : Unpacker) (layout : DataLayout) (s : Bench) (words : List Word) (e : DecodedEvent) :
    DecodedEvent × Bench :=
  if layout.hasTS then
    setTime s e (widthOf u layout words) (extensionOf u layout words).fineTS
      (extensionOf u layout words).fineBits
  else (e, s)

def nextWave (layout : DataLayout) (words : List Word) (wave : List Sample) : List Sample :=
  if layout.hasTrace ∧ layout.numSamples / 2 ≠ 0 then
    traceSamples layout (traceWordsOf layout words) else wave

def eventStep (u : Unpacker) (board couple : ℕ) (layout : DataLayout) (s : Bench)
    (words : List Word) : List DecodedEvent × Bench :=
  let r := timed u layout (s.countIncomplete (lacking u layout)) words
    (untimed u board couple layout words)
  ([r.1], r.2.setWave (nextWave layout words r.2.tally.wave))

theorem timed_frame (u : Unpacker) (layout : DataLayout) (s : Bench) (words : List Word)
    (e : DecodedEvent) : (timed u layout s words e).2.bd.frame = s.bd.frame := by
  simp only [timed, setTime]
  split_ifs <;> rfl

theorem eventStep_frame (u : Unpacker) (board couple : ℕ) (layout : DataLayout) (s : Bench)
    (words : List Word) : (eventStep u board couple layout s words).2.bd.frame = s.bd.frame := by
  have h := timed_frame u layout (s.countIncomplete (lacking u layout)) words
    (untimed u board couple layout words)
  rw [Bench.countIncomplete_bd] at h
  exact h

/-- Is a bit set in an event that a working board never sets? -/
def reservedSet (layout : DataLayout) (words : List Word) : Bool :=
  words.getD 0 0 &&& layout.resTS ≠ 0 ||
    words.getD (layout.evtSize - 1) 0 &&& layout.resEnergy ≠ 0

def coupleStep (u : Unpacker) (board : ℕ) (s : Bench) :
    CoupleSegment → List DecodedEvent × Bench
  | .truncated => ([], s.corrupted)
  | .malformed form => ([], (s.setDataFormat form).corrupted)
  | .channel couple form payload =>
    let s := s.setDataFormat form
    let events := eventsOf s.bd.frame.layout payload
    if u.checksReserved && events.any (reservedSet s.bd.frame.layout) then
      ([], s.rejected events.length)
    else run (eventStep u board couple s.bd.frame.layout) s events

def unpackerOf (bd : BoardDec) : Unpacker := if bd.isPHA then phaUnpacker else psdUnpacker

theorem unpackerOf_cases (bd : BoardDec) :
    unpackerOf bd = phaUnpacker ∨ unpackerOf bd = psdUnpacker := by
  unfold unpackerOf
  cases bd.isPHA with
  | true => exact Or.inl rfl
  | false => exact Or.inr rfl

def couplesOf (bd : BoardDec) (words : List Word) : List CoupleSegment :=
  coupleSegments bd.frame.dppType bd.frame.dgtzName (couples (maskOf words))
    (words.drop kAggHeaderWords)

def countFail (tally : Tally) (fail : Bool) : Tally :=
  { tally with boardFail := if fail then tally.boardFail + 1 else tally.boardFail }

def segmentStep (d : AggregateDecoder) : Segment → List DecodedEvent × AggregateDecoder
  | .badLength => ([], { d with tally := { d.tally with corrupt := d.tally.corrupt + 1 } })
  | .aggregate words =>
    let tally := countFail d.tally (failOf words)
    match d.boards (boardOf words) with
    | some bd =>
      if bd.supported then
        let r := run (coupleStep (unpackerOf bd) (boardOf words)) ⟨bd, tally⟩ (couplesOf bd words)
        (r.1, { boards := Function.update d.boards (boardOf words) (some r.2.bd)
                tally := r.2.tally })
      else ([], { d with tally := tally })
    | none => ([], { d with tally := tally })

def decodeWords (d : AggregateDecoder) (words : List Word) :
    List DecodedEvent × AggregateDecoder :=
  run segmentStep d (segments words)

def decoded (r : List DecodedEvent × AggregateDecoder) : Decoded := ⟨r.1, r.1.length, r.2⟩

end AggregateStream
end CaenDaq
