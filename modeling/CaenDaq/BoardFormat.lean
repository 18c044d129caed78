import CaenDaq.BoardStream

/-!
# The format the boards write

A reference encoding of events, channel aggregates and board aggregates, with the bit
positions of each family in one table and words put together from their fields, and
what an encoded event means. Nothing here refers to the decoder's layout or its loops.
-/

namespace CaenDaq
namespace BoardFormat

open DataFrame AggregateDecoder BoardStream

inductive Family
  | phaX724 | phaX730 | psdX730 | psdX720
  deriving DecidableEq, Repr

/-- Where a family keeps things: widths in bits, flags by their bit in the format word. -/
structure FamilyFormat where
  firmware : Firmware
  sizeBits : ℕ
  dataFlag : ℕ
  timeFlag : ℕ
  extrasFlag : Option ℕ
  traceFlag : ℕ
  hasMode : Bool
  samplesBits : ℕ
  samplesUnit : ℕ
  timeBits : ℕ
  /-- Number of values that a working board writes above the time tag. -/
  topValues : ℕ
  channelBit : Bool
  sampleBits : ℕ
  /-- Width of the flags, or of the long-gate charge, above the pile-up bit. -/
  highBits : ℕ

def Family.format : Family → FamilyFormat
  | .phaX724 =>
    { firmware := .pha, sizeBits := 21, dataFlag := 29, timeFlag := 28, extrasFlag := none
      traceFlag := 30, hasMode := false, samplesBits := 16, samplesUnit := 2, timeBits := 30
      topValues := 2, channelBit := false, sampleBits := 14, highBits := 8 }
  | .phaX730 =>
    { firmware := .pha, sizeBits := 31, dataFlag := 30, timeFlag := 29, extrasFlag := some 28
      traceFlag := 27, hasMode := true, samplesBits := 16, samplesUnit := 8, timeBits := 31
      topValues := 2, channelBit := true, sampleBits := 14, highBits := 5 }
  | .psdX730 =>
    { firmware := .psd, sizeBits := 22, dataFlag := 30, timeFlag := 29, extrasFlag := some 28
      traceFlag := 27, hasMode := true, samplesBits := 16, samplesUnit := 8, timeBits := 31
      topValues := 2, channelBit := true, sampleBits := 14, highBits := 16 }
  | .psdX720 =>
    { firmware := .psd, sizeBits := 24, dataFlag := 30, timeFlag := 29, extrasFlag := some 28
      traceFlag := 27, hasMode := false, samplesBits := 12, samplesUnit := 8, timeBits := 32
      topValues := 1, channelBit := false, sampleBits := 12, highBits := 16 }

/-- Model names of a family: the code of the family and of no other one. -/
def Family.Named : Family → String → Prop
  | .phaX724, name => isX724Family name = true ∧ isX730Family name = false
  | .phaX730, name => isX730Family name = true ∧ isX724Family name = false
  | .psdX730, name => isX730Family name = true ∧ isX724Family name = false
  | .psdX720, name =>
    isX720Family name = true ∧ isX730Family name = false ∧ isX724Family name = false

def fieldOf (form : Word) (lo width : ℕ) : ℕ := form.toNat / 2 ^ lo % 2 ^ width

variable (f : Family) (form : Word)

def traceOn : Bool := form.getLsbD f.format.traceFlag

def dualOn : Bool := form.getLsbD 31

/-- The extras word is switched on, and the family has one. -/
def extrasOn : Bool :=
  match f.format.extrasFlag with
  | some i => form.getLsbD i
  | none => false

def modeOf : ℕ := if f.format.hasMode then fieldOf form 24 3 else 0

def samplesOf : ℕ := fieldOf form 0 f.format.samplesBits * f.format.samplesUnit

def traceWords : ℕ := if traceOn f form then samplesOf f form / 2 else 0

/-- The format words the encoding is for: the time word and the energy or charge word are
recorded, and a trace has fewer than 65536 samples. -/
structure Recorded : Prop where
  time : form.getLsbD f.format.timeFlag = true
  data : form.getLsbD f.format.dataFlag = true
  samples : traceOn f form = true → samplesOf f form < 65536

/-- Half a trace word: a sample and the digital probes above it. -/
structure Half where
  sample : ℕ
  probes : ℕ

/-- The content of an event. `value` is the energy or the short-gate charge, `high` the
flags or the long-gate charge, and `rest` what is left of that word. -/
structure Event where
  tag : ℕ
  top : ℕ
  trace : List (Half × Half)
  extrasHigh : ℕ
  extrasLow : ℕ
  value : ℕ
  pileup : Bool
  high : ℕ
  rest : ℕ
  tag_lt : tag < 2 ^ f.format.timeBits
  top_lt : top < f.format.topValues
  trace_length : trace.length = traceWords f form
  half_lt : ∀ w ∈ trace, ∀ h ∈ [w.1, w.2],
    h.sample < 2 ^ f.format.sampleBits ∧ h.probes < 2 ^ (16 - f.format.sampleBits)
  extrasHigh_lt : extrasHigh < 2 ^ 16
  extrasLow_lt : extrasLow < 2 ^ 16
  value_lt : value < 2 ^ 15
  high_lt : high < 2 ^ f.format.highBits
  rest_lt : rest < 2 ^ (16 - f.format.highBits)
  /-- The reserved bits of an x724 energy word, 24, 25 and 28 to 31, are clear. -/
  reserved : f = .phaX724 → rest % 4 = 0 ∧ rest < 16

def eventLength : ℕ := 1 + traceWords f form + (if extrasOn f form then 1 else 0) + 1

variable {f form}

namespace Event

variable (e : Event f form)

def timeWord : Word := BitVec.ofNat 32 (e.tag + e.top * 2 ^ f.format.timeBits)

def halfBits (f : Family) (h : Half) : ℕ := h.sample + h.probes * 2 ^ f.format.sampleBits

def traceWord (f : Family) (w : Half × Half) : Word :=
  BitVec.ofNat 32 (halfBits f w.1 + halfBits f w.2 * 2 ^ 16)

def extrasWord : Word := BitVec.ofNat 32 (e.extrasLow + e.extrasHigh * 2 ^ 16)

def dataWord : Word :=
  BitVec.ofNat 32 (e.value + e.pileup.toNat * 2 ^ 15 + e.high * 2 ^ 16 +
    e.rest * 2 ^ (16 + f.format.highBits))

def words : List Word :=
  e.timeWord :: (e.trace.map (traceWord f) ++
    ((if extrasOn f form then [e.extrasWord] else []) ++ [e.dataWord]))

theorem words_length : e.words.length = eventLength f form := by
  simp only [words, eventLength, List.length_cons, List.length_append, List.length_map,
    e.trace_length, List.length_nil]
  split <;> simp only [List.length_cons, List.length_nil] <;> omega

/-- The samples of trace 1: the low halves where two traces share the words. -/
def samples : List Sample :=
  if dualOn form then e.trace.map fun w => BitVec.ofNat 16 w.1.sample
  else e.trace.flatMap fun w => [BitVec.ofNat 16 w.1.sample, BitVec.ofNat 16 w.2.sample]

def extensionBits (f : Family) (form : Word) : ℕ :=
  if extrasOn f form then
    if f.format.hasMode then (if modeOf f form ≤ 2 then 16 else 0) else 15
  else 0

def extension : ℕ :=
  if extensionBits f form = 0 then 0
  else if f.format.hasMode then e.extrasHigh else e.extrasLow % 2 ^ 15

def counter : ℕ := e.tag + e.extension * 2 ^ f.format.timeBits

def counterBits (f : Family) (form : Word) : ℕ := f.format.timeBits + extensionBits f form

def hasFine (f : Family) (form : Word) : Bool :=
  extrasOn f form && f.format.hasMode && decide (modeOf f form = 2)

def fine : ℕ := if hasFine f form then e.extrasLow % 2 ^ 10 else 0

def fineBits (f : Family) (form : Word) : ℕ := if hasFine f form then 10 else 0

def hasFlags (f : Family) (form : Word) : Bool :=
  extrasOn f form && f.format.hasMode && decide (modeOf f form = 1)

def meaning (board couple : ℕ) : DecodedEvent :=
  let channel := if f.format.channelBit then e.top + couple * 2 else couple
  match f.format.firmware with
  | .pha =>
    { board := board, channel := channel, timestamp := e.counter, energy := e.value
      pileup := e.pileup, satu := e.high.testBit 4 || e.high.testBit 7, lost := e.high.testBit 5
      wave := e.samples }
  | .psd =>
    { board := board, channel := channel, timestamp := e.counter, qshort := e.value
      qlong := e.high, pileup := e.pileup, satu := hasFlags f form && e.extrasLow.testBit 14
      lost := hasFlags f form && e.extrasLow.testBit 12, wave := e.samples }

end Event

/-- A channel aggregate: its format word and its events. Above its length the first word
holds anything. -/
structure ChannelAggregate (f : Family) where
  form : Word
  recorded : Recorded f form
  events : List (Event f form)
  sizeRest : ℕ
  fits : 2 + events.length * eventLength f form < 2 ^ f.format.sizeBits
  sizeRest_lt : sizeRest < 2 ^ (32 - f.format.sizeBits)

theorem length_flatten_words {α : Type} {words : α → List Word} {n : ℕ}
    (h : ∀ e, (words e).length = n) (events : List α) :
    (events.map words).flatten.length = events.length * n := by
  induction events with
  | nil => simp
  | cons e es ih =>
    rw [List.map_cons, List.flatten_cons, List.length_append, ih, h, List.length_cons,
      Nat.add_mul, Nat.one_mul, Nat.add_comm]

namespace ChannelAggregate

variable (c : ChannelAggregate f)

def length : ℕ := 2 + c.events.length * eventLength f c.form

def sizeWord : Word := BitVec.ofNat 32 (c.length + c.sizeRest * 2 ^ f.format.sizeBits)

def payload : List Word := (c.events.map Event.words).flatten

def words : List Word := c.sizeWord :: c.form :: c.payload

theorem payload_length : c.payload.length = c.events.length * eventLength f c.form :=
  length_flatten_words Event.words_length c.events

theorem words_length : c.words.length = c.length := by
  simp only [words, List.length_cons, payload_length, length]
  omega

end ChannelAggregate

/-- A board aggregate: one channel aggregate for each bit set in the mask, in ascending
order. The bits between mask and FAIL bit, and two header words, hold anything. -/
structure Aggregate where
  family : Family
  board : ℕ
  fail : Bool
  middle : ℕ
  mask : ℕ
  header₂ : Word
  header₃ : Word
  channels : ℕ → ChannelAggregate family
  board_lt : board < 2 ^ 5
  middle_lt : middle < 2 ^ 18
  mask_lt : mask < 2 ^ 8
  fits : 4 + (((couples mask).map fun c => (channels c).words).flatten).length < 2 ^ 28

namespace Aggregate

variable (a : Aggregate)

def body : List Word := ((couples a.mask).map fun c => (a.channels c).words).flatten

def length : ℕ := 4 + a.body.length

def syncWord : Word := BitVec.ofNat 32 (0xA * 2 ^ 28 + a.length)

def headWord : Word :=
  BitVec.ofNat 32 (a.board * 2 ^ 27 + a.fail.toNat * 2 ^ 26 + a.middle * 2 ^ 8 + a.mask)

def words : List Word := a.syncWord :: a.headWord :: a.header₂ :: a.header₃ :: a.body

theorem words_length : a.words.length = a.length := by
  simp only [words, List.length_cons, length]
  omega

end Aggregate

structure SentEvent where
  board : ℕ
  couple : ℕ
  family : Family
  form : Word
  event : Event family form

def SentEvent.meaning (x : SentEvent) : DecodedEvent := x.event.meaning x.board x.couple

def Aggregate.sent (a : Aggregate) : List SentEvent :=
  ((couples a.mask).map fun c =>
    (a.channels c).events.map fun e => ⟨a.board, c, a.family, (a.channels c).form, e⟩).flatten

/-- Time of a tick count in ps, with its fine part; zero for an unknown period. -/
def timeOf (psPerTick tick fine fineBits : ℕ) : ℤ :=
  if psPerTick = 0 then 0
  else toInt64 (tick * psPerTick) +
    if fineBits > 0 then toInt64 (fine * psPerTick % 2 ^ 64 / 2 ^ fineBits) else 0

def stamp (b : ℕ × ChannelClock) (x : SentEvent) : List DecodedEvent × (ℕ × ChannelClock) :=
  let r := b.2.unwrap x.event.counter (Event.counterBits x.family x.form)
  let ps := timeOf b.1 r.1 x.event.fine (Event.fineBits x.family x.form)
  ([{ x.meaning with timePs := ps }], (b.1, r.2))

def timebase (d : AggregateDecoder) (b : ℕ) : ℕ × ChannelClock :=
  match d.boards b with
  | some bd => (bd.psPerTick, bd.clock)
  | none => (0, {})

/-- The board of the aggregate is registered, with the firmware and the name of its family. -/
def Registered (d : AggregateDecoder) (a : Aggregate) : Prop :=
  ∃ bd, d.boards a.board = some bd ∧ bd.frame.dppType = a.family.format.firmware ∧
    a.family.Named bd.frame.dgtzName

/-- A readout buffer: aggregates with filler words in front of each and behind the last,
and the first bytes of one more aggregate, fewer than it has. -/
structure Buffer where
  items : List (List Word × Aggregate)
  trailing : List Word
  last : BoardAggregate
  cut : ℕ
  filler : ∀ w ∈ trailing ++ (items.map Prod.fst).flatten, w.toNat / 2 ^ 28 ≠ 0xA
  cut_lt : cut < (payload [last]).length

namespace Buffer

variable (buffer : Buffer)

def aggregates : List Aggregate := buffer.items.map Prod.snd

def words : List Word :=
  (buffer.items.map fun i => i.1 ++ i.2.words).flatten ++ buffer.trailing

def bytes : List (BitVec 8) := bytesOf buffer.words ++ (payload [buffer.last]).take buffer.cut

def sent : List SentEvent := (buffer.aggregates.map Aggregate.sent).flatten

end Buffer

end BoardFormat
end CaenDaq
