import CaenDaq.BoardInfo
import CaenDaq.ChannelClock
import CaenDaq.Transducer

/-!
# The aggregate decoder as the source computes it

`AggregateDecoder`: the walk over a raw readout buffer, the two unpackers and the
trace copy. Word indices are absolute, offsets are 32-bit, and every read and
offset computation is checked: a fault stands where the source would read outside
the buffer (or an event would read outside the aggregates that announced it), wrap
an offset, divide by zero, or walk for ever.
-/

namespace CaenDaq

open Checked Transducer DataFrame

def kAggHeaderWords : ℕ := 4

def kMaxChannels : ℕ := 16

def kPhaSatuBit : ℕ := 0x10
def kPhaDoubleSatBit : ℕ := 0x80
def kPhaLostBit : ℕ := 0x20
def kPsdLostBit : ℕ := 0x00001000
def kPsdOverBit : ℕ := 0x00004000

def toCaenDpp (t : DppType) : Firmware := if t = .psd then .psd else .pha

/-- What the decoder keeps of one board. The firmware flag and the support flag are
those of its frame. -/
structure BoardDec where
  frame : DataFrame
  isPHA : Bool
  supported : Bool
  psPerTick : ℕ
  clock : ChannelClock := {}
  isPHA_eq : isPHA = decide (frame.dppType = .pha)
  supported_eq : supported = frame.isSupported

/-- The trace buffer and the counters, shared by all boards. -/
structure Tally where
  wave : List Sample := []
  corrupt : ℕ := 0
  boardFail : ℕ := 0
  uninitialised : ℕ := 0
  uninitialisedEvents : ℕ := 0
  incomplete : ℕ := 0
  deriving DecidableEq, Repr

structure AggregateDecoder where
  boards : ℕ → Option BoardDec := fun _ => none
  tally : Tally := {}

namespace AggregateDecoder

def timeStampPs (bi : BoardInfo) : ℕ :=
  if bi.nsPerSample ≠ 0 then 1000 * bi.nsPerSample
  else if nameHas bi.modelName "724" || nameHas bi.modelName "781" || nameHas bi.modelName "782"
  then 10000
  else if nameHas bi.modelName "725" || nameHas bi.modelName "720" then 4000
  else if nameHas bi.modelName "730" then 2000
  else 0

def newBoard (dpp : DppType) (modelName : String) (psPerTick : ℕ) : BoardDec where
  frame := DataFrame.build (toCaenDpp dpp) modelName
  isPHA := dpp ≠ .psd
  supported := (DataFrame.build (toCaenDpp dpp) modelName).isSupported
  psPerTick := psPerTick
  isPHA_eq := by cases dpp <;> rfl
  supported_eq := rfl

def registerBoard (d : AggregateDecoder) (boardRegId : ℕ) (dpp : DppType) (modelName : String)
    (psPerTick : ℕ) : AggregateDecoder :=
  { d with boards := Function.update d.boards boardRegId (some (newBoard dpp modelName psPerTick)) }

def registerBoardInfo (d : AggregateDecoder) (bi : BoardInfo) : AggregateDecoder :=
  d.registerBoard bi.boardRegId bi.dppType bi.modelName (timeStampPs bi)

/-- The state one board aggregate is unpacked in: its board and the shared tally. -/
structure Bench where
  bd : BoardDec
  tally : Tally

namespace Bench

def corrupted (s : Bench) : Bench :=
  { s with tally := { s.tally with corrupt := s.tally.corrupt + 1 } }

def rejected (s : Bench) (nEvents : ℕ) : Bench :=
  { s with tally := { s.tally with
      uninitialised := s.tally.uninitialised + 1
      uninitialisedEvents := s.tally.uninitialisedEvents + nEvents } }

def countIncomplete (s : Bench) (lacking : Bool) : Bench :=
  if lacking then { s with tally := { s.tally with incomplete := s.tally.incomplete + 1 } } else s

@[simp] theorem countIncomplete_bd (s : Bench) (lacking : Bool) :
    (s.countIncomplete lacking).bd = s.bd := by
  cases lacking <;> rfl

def setDataFormat (s : Bench) (form : Word) : Bench :=
  { s with bd := { s.bd with
      frame := s.bd.frame.setDataFormat form
      isPHA_eq := by simpa using s.bd.isPHA_eq
      supported_eq := by simpa using s.bd.supported_eq } }

def setClock (s : Bench) (c : ChannelClock) : Bench := { s with bd := { s.bd with clock := c } }

def setWave (s : Bench) (wave : List Sample) : Bench :=
  { s with tally := { s.tally with wave := wave } }

end Bench

/-- Two's complement reading of a 64-bit value. -/
def toInt64 (n : ℕ) : ℤ := (BitVec.ofNat 64 n).toInt

def setTime (s : Bench) (e : DecodedEvent) (width fineTS fineBits : ℕ) : DecodedEvent × Bench :=
  let r := s.bd.clock.unwrap e.timestamp width
  let s := s.setClock r.2
  if s.bd.psPerTick = 0 then (e, s)
  else
    let ps := toInt64 (r.1 * s.bd.psPerTick)
    let fine := if fineBits > 0 then toInt64 ((fineTS * s.bd.psPerTick % 2 ^ 64) >>> fineBits) else 0
    ({ e with timePs := ps + fine }, s)

def sample (word : Word) (lo hi : ℕ) : Sample := BitVec.ofNat 16 (extractBits word (lo, hi))

/-- The samples of trace 1 held by a run of words: the low half of each word when two
traces share them, both halves otherwise. -/
def traceSamples (layout : DataLayout) (words : List Word) : List Sample :=
  let lo := layout.fmtSample.1
  let hi := layout.fmtSample.2
  if layout.dualTrace then words.map fun w => sample w lo hi
  else words.flatMap fun w => [sample w lo hi, sample w (lo + 16) (hi + 16)]

/-- `unpackWave`: the new trace buffer and the number of samples in it that are the trace. -/
def unpackWave (inside : List Window) (buf : List Word) (layout : DataLayout) (first : ℕ)
    (wave : List Sample) : Run (List Sample × ℕ) := do
  let nWords := layout.numSamples / 2
  if nWords = 0 then pure (wave, 0)
  else
    let words ← readMany inside buf first nWords
    let wave := traceSamples layout words
    pure (wave, if layout.dualTrace then nWords else 2 * nWords)

/-- Time stamp extension and fine time stamp of an event: value and width of each. -/
structure Extension where
  extendedTS : ℕ := 0
  extendedBits : ℕ := 0
  fineTS : ℕ := 0
  fineBits : ℕ := 0
  satu : Bool := false
  lost : Bool := false
  deriving DecidableEq, Repr

def phaExtension (layout : DataLayout) (extras2 : Word) : Extension :=
  if layout.hasExtras then
    { extendedTS := if layout.extrasMode ≤ 2 then extras2.toNat >>> 16 else 0
      extendedBits := if layout.extrasMode ≤ 2 then 16 else 0
      fineTS := if layout.extrasMode = 2 then extras2.toNat &&& 0x3FF else 0
      fineBits := if layout.extrasMode = 2 then 10 else 0 }
  else {}

def psdExtension (layout : DataLayout) (extras2 : Word) : Extension :=
  if layout.hasExtras then
    if layout.extrasConfig then
      { extendedTS := if layout.extrasMode ≤ 2 then extras2.toNat >>> 16 else 0
        extendedBits := if layout.extrasMode ≤ 2 then 16 else 0
        fineTS := if layout.extrasMode = 2 then extras2.toNat &&& 0x3FF else 0
        fineBits := if layout.extrasMode = 2 then 10 else 0
        satu := layout.extrasMode = 1 && (extras2.toNat &&& kPsdOverBit) ≠ 0
        lost := layout.extrasMode = 1 && (extras2.toNat &&& kPsdLostBit) ≠ 0 }
    else { extendedTS := extras2.toNat &&& 0x7FFF, extendedBits := 15 }
  else {}

def rawTimestamp (layout : DataLayout) (x : Extension) (rawTS : ℕ) : ℕ :=
  if x.extendedBits ≠ 0 then (x.extendedTS <<< layout.tsBits) ||| rawTS else rawTS

def phaFields (layout : DataLayout) (board channel : ℕ) (timeWord energyWord : Word)
    (x : Extension) : DecodedEvent :=
  let flags := extractBits energyWord layout.fmtExtras
  { board := board % 2 ^ 16
    channel := channel % 2 ^ 16
    energy := energyWord.toNat &&& 0x7FFF
    pileup := bitAt energyWord 15
    satu := (flags &&& (kPhaSatuBit ||| kPhaDoubleSatBit)) ≠ 0
    lost := (flags &&& kPhaLostBit) ≠ 0
    timestamp := rawTimestamp layout x (extractBits timeWord layout.fmtTS) }

def psdFields (layout : DataLayout) (board channel : ℕ) (timeWord chargeWord : Word)
    (x : Extension) : DecodedEvent :=
  { board := board % 2 ^ 16
    channel := channel % 2 ^ 16
    qshort := chargeWord.toNat &&& 0x7FFF
    qlong := (chargeWord.toNat >>> 16) % 2 ^ 16
    pileup := bitAt chargeWord 15
    satu := x.satu
    lost := x.lost
    timestamp := rawTimestamp layout x (extractBits timeWord layout.fmtTS) }

/-- Where the two unpackers differ: the flag of the last word of an event, the meaning
of the extras word, the fields of the event (the trace comes later), and the check for
uninitialised memory. -/
structure Unpacker where
  hasData : DataLayout → Bool
  extension : DataLayout → Word → Extension
  fields : DataLayout → ℕ → ℕ → Word → Word → Extension → DecodedEvent
  fields_wave : ∀ l b c t w x, (fields l b c t w x).wave = []
  checksReserved : Bool

def phaUnpacker : Unpacker where
  hasData := DataLayout.hasEnergy
  extension := phaExtension
  fields := phaFields
  fields_wave := fun _ _ _ _ _ _ => rfl
  checksReserved := true

def psdUnpacker : Unpacker where
  hasData := DataLayout.hasCharge
  extension := psdExtension
  fields := psdFields
  fields_wave := fun _ _ _ _ _ _ => rfl
  checksReserved := false

/-- Channel of an event: the couple, or one of the two channels of the couple. -/
def channelOf (layout : DataLayout) (couple : ℕ) (timeWord : Word) : ℕ :=
  if layout.hasChannelBit then ((timeWord.toNat >>> 31) &&& 0x1) + couple * 2 else couple

def emitEvent (inside : List Window) (buf : List Word) (layout : DataLayout) (ev : ℕ)
    (r : DecodedEvent × Bench) : Run (List DecodedEvent × Bench) :=
  if layout.hasTrace then do
    let first ← add 32 ev (if layout.hasTS then 1 else 0)
    let w ← unpackWave inside buf layout first r.2.tally.wave
    pure ([{ r.1 with wave := w.1.take w.2 }], r.2.setWave w.1)
  else pure ([r.1], r.2)

/-- One round of the event loop. `agg` and `chan` are the board aggregate and the
channel aggregate the event belongs to. -/
def eventBody (u : Unpacker) (buf : List Word) (agg chan : Window) (board couple base : ℕ)
    (layout : DataLayout) (s : Bench) (evt : ℕ) : Run (List DecodedEvent × Bench) := do
  let ev ← add 32 base (← mul 32 evt layout.evtSize)
  let inside := [agg, chan, ⟨ev, ev + layout.evtSize⟩]
  let timeWord ← select layout.hasTS (readIn inside buf ev) 0
  let dataWord ← select (u.hasData layout)
    (do readIn inside buf (← add 32 ev (← sub layout.evtSize 1))) 0
  let lastWords := if u.hasData layout then 1 else 0
  let s := s.countIncomplete (!layout.hasTS || !u.hasData layout)
  let channel := channelOf layout couple timeWord
  if kMaxChannels ≤ channel then pure ([], s)
  else
    -- the index `ev + evtSize - 1 - lastWords`, the subtraction checked on its own
    let extras2 ← select layout.hasExtras
      (do readIn inside buf (← add 32 ev (← sub (← sub layout.evtSize 1) lastWords))) 0
    let x := u.extension layout extras2
    let e := u.fields layout board channel timeWord dataWord x
    emitEvent inside buf layout ev
      (if layout.hasTS then setTime s e (layout.tsBits + x.extendedBits) x.fineTS x.fineBits
        else (e, s))

def reservedLoop (buf : List Word) (agg chan : Window) (base : ℕ) (layout : DataLayout) :
    ℕ → ℕ → Run Bool
  | _, 0 => pure false
  | evt, n + 1 => do
    let ev ← add 32 base (← mul 32 evt layout.evtSize)
    let inside := [agg, chan, ⟨ev, ev + layout.evtSize⟩]
    let first ← readIn inside buf ev
    if first &&& layout.resTS ≠ 0 then pure true
    else
      let last ← readIn inside buf (← add 32 ev (← sub layout.evtSize 1))
      if last &&& layout.resEnergy ≠ 0 then pure true
      else reservedLoop buf agg chan base layout (evt + 1) n

/-- The channel aggregates of one board aggregate, one for each couple, from `pos` on. -/
def coupleLoop (u : Unpacker) (buf : List Word) (agg : Window) (board : ℕ) :
    List ℕ → ℕ → Bench → Run (List DecodedEvent × Bench)
  | [], _, s => pure ([], s)
  | couple :: rest, pos, s => do
    let afterHeader ← add 32 pos 2
    if afterHeader > agg.hi then pure ([], s.corrupted)
    else
      let coupleSize := extractBits (← read buf pos) s.bd.frame.sizeFormat
      let s := s.setDataFormat (← read buf (← add 32 pos 1))
      let layout := s.bd.frame.layout
      let next ← add 32 pos coupleSize
      if coupleSize < 2 ∨ next > agg.hi ∨ layout.evtSize = 0 then pure ([], s.corrupted)
      else
        let nEvents ← div (← sub coupleSize 2) layout.evtSize
        let base := afterHeader
        let chan : Window := ⟨pos, next⟩
        let invalid ← select (u.checksReserved && (layout.resTS ≠ 0 || layout.resEnergy ≠ 0))
          (reservedLoop buf agg chan base layout 0 nEvents) false
        if invalid then coupleLoop u buf agg board rest next (s.rejected nEvents)
        else
          let r ← forLoop (eventBody u buf agg chan board couple base layout) s 0 nEvents
          let t ← coupleLoop u buf agg board rest next r.2
          pure (r.1 ++ t.1, t.2)

def couples (mask : ℕ) : List ℕ := (List.range 8).filter fun b => mask.testBit b

def decodeAggregate (u : Unpacker) (buf : List Word) (board mask offset aggLen : ℕ) (s : Bench) :
    Run (List DecodedEvent × Bench) := do
  let aggEnd ← add 32 offset aggLen
  let pos ← add 32 offset kAggHeaderWords
  coupleLoop u buf ⟨offset, aggEnd⟩ board (couples mask) pos s

def decodePHA := decodeAggregate phaUnpacker

def decodePSD := decodeAggregate psdUnpacker

/-- The `while` loop of `decode`, at most `fuel` rounds of it. -/
def walk (buf : List Word) (nwords : ℕ) :
    ℕ → ℕ → AggregateDecoder → Run (List DecodedEvent × AggregateDecoder)
  | 0, _, _ => .error .outOfFuel
  | fuel + 1, offset, d => do
    if (← add 32 offset kAggHeaderWords) ≤ nwords then
      let sync ← read buf offset
      if sync.toNat >>> 28 ≠ 0xA then walk buf nwords fuel (← add 32 offset 1) d
      else
        let aggLen := sync.toNat &&& 0x0FFFFFFF
        if aggLen < kAggHeaderWords then
          walk buf nwords fuel (← add 32 offset 1)
            { d with tally := { d.tally with corrupt := d.tally.corrupt + 1 } }
        else
          let next ← add 32 offset aggLen
          if next > nwords then pure ([], d)
          else
            let head ← read buf (← add 32 offset 1)
            let board := (head.toNat &&& 0xF8000000) >>> 27
            let mask := head.toNat &&& 0xFF
            let failBit := (head.toNat >>> 26) &&& 0x1
            let tally := { d.tally with
              boardFail := if failBit ≠ 0 then d.tally.boardFail + 1 else d.tally.boardFail }
            match d.boards board with
            | some bd =>
              if bd.supported then
                let r ← (if bd.isPHA then decodePHA buf board mask offset aggLen ⟨bd, tally⟩
                  else decodePSD buf board mask offset aggLen ⟨bd, tally⟩)
                let t ← walk buf nwords fuel next
                  { boards := Function.update d.boards board (some r.2.bd), tally := r.2.tally }
                pure (r.1 ++ t.1, t.2)
              else walk buf nwords fuel next { d with tally := tally }
            | none => walk buf nwords fuel next { d with tally := tally }
    else pure ([], d)

/-- The 32-bit words of a byte buffer, little endian; up to three bytes at the end make none. -/
def wordsOf : List (BitVec 8) → List Word
  | b₀ :: b₁ :: b₂ :: b₃ :: rest => (b₃ ++ b₂ ++ b₁ ++ b₀) :: wordsOf rest
  | _ => []

/-- What one `decode` call hands out: the events its callback saw, their number, which it
returns, and the decoder afterwards. -/
structure Decoded where
  events : List DecodedEvent
  count : ℕ
  decoder : AggregateDecoder

def decode (d : AggregateDecoder) (data : List (BitVec 8)) : Run Decoded := do
  let nwords := data.length / 4 % 2 ^ 32
  let r ← walk (wordsOf data) nwords (nwords + 1) 0 d
  pure ⟨r.1, r.1.length, r.2⟩

end AggregateDecoder
end CaenDaq
