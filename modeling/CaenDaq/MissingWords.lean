import CaenDaq.Ledger
import CaenDaq.StreamRoundTrip

/-!
# Events without a time word or an energy word

A board with time stamp or energy recording switched off sends shorter events. The
unpackers leave the missing fields at zero and keep the trace; the check for words that
were never written looks at the first and the last word of an event all the same.
-/

namespace CaenDaq
namespace MissingWords

open Checked Transducer DataFrame AggregateDecoder AggregateStream DecoderRefinement BoardStream
open BoardFormat EventRoundTrip StreamRoundTrip Ledger

section Format

variable (f : Family) (form : Word)

def timeOn : Bool := form.getLsbD f.format.timeFlag

def dataOn : Bool := form.getLsbD f.format.dataFlag

/-- An event of any format. The words of its trace are arbitrary; of the others an x724
board leaves the reserved bits clear. -/
structure LooseEvent where
  time : Word
  trace : List Word
  extras : Word
  data : Word
  trace_length : trace.length = traceWords f form
  time_clear : f = .phaX724 → time &&& 0x80000000 = 0
  data_clear : f = .phaX724 → data &&& 0xF3000000 = 0

def looseLength : ℕ :=
  (if timeOn f form then 1 else 0) + traceWords f form + (if extrasOn f form then 1 else 0) +
    (if dataOn f form then 1 else 0)

def lowSample (w : Word) : Sample := BitVec.ofNat 16 (fieldOf w 0 f.format.sampleBits)

def highSample (w : Word) : Sample := BitVec.ofNat 16 (fieldOf w 16 f.format.sampleBits)

def samplesIn (trace : List Word) : List Sample :=
  if dualOn form then trace.map (lowSample f)
  else trace.flatMap fun w => [lowSample f w, highSample f w]

end Format

variable {f : Family} {form : Word}

namespace LooseEvent

variable (e : LooseEvent f form)

def words : List Word :=
  (if timeOn f form then [e.time] else []) ++ (e.trace ++
    ((if extrasOn f form then [e.extras] else []) ++ (if dataOn f form then [e.data] else [])))

theorem words_length : e.words.length = looseLength f form := by
  simp only [words, looseLength, List.length_append, e.trace_length]
  split <;> split <;> split <;> simp only [List.length_cons, List.length_nil] <;> omega

end LooseEvent

/-- An event that was decoded as it should be: its trace is the one that was sent, and what
was not sent is zero. -/
def IsKept (e : LooseEvent f form) (ev : DecodedEvent) : Prop :=
  ev.wave = samplesIn f form e.trace ∧ (timeOn f form = false → ev.timePs = 0) ∧
    (dataOn f form = false → ev.energy = 0 ∧ ev.qshort = 0 ∧ ev.qlong = 0)

/-- The first word stands clear of bit 31 where it is no time word, and the last one of the
reserved energy bits where it is no energy word. -/
def Unsuspicious (e : LooseEvent f form) : Prop :=
  (timeOn f form = false → e.words.getD 0 0 &&& 0x80000000 = 0) ∧
    (dataOn f form = false → e.words.getLastD 0 &&& 0xF3000000 = 0)

section Layout

variable {name : String} (hname : f.Named name)
  (hsamples : traceOn f form = true → samplesOf f form < 65536)

include hname hsamples in
theorem looseLength_resolveLayout :
    (resolveLayout f.format.firmware name form).evtSize = looseLength f form := by
  have hr := reads_resolveLayout hname form
  have htrace : (if traceOn f form then samplesOf f form % 2 ^ 16 / 2 else 0) =
      traceWords f form := by
    unfold traceWords
    by_cases ht : traceOn f form = true
    · have hlt : samplesOf f form < 2 ^ 16 := hsamples ht
      rw [if_pos ht, if_pos ht, Nat.mod_eq_of_lt hlt]
    · rw [if_neg ht, if_neg ht]
  rw [resolveLayout_evtSize, hr.hasTS, hr.hasExtras, hr.hasTrace, hr.numSamples, htrace,
    hr.energyOrCharge, looseLength, timeOn, dataOn, toNat_flag, toNat_flag, toNat_flag]
  omega

theorem unpacker_family (f : Family) (name : String) :
    Kind.unpacker ⟨f.format.firmware, name⟩ = Family.unpacker f := by
  cases f <;> rfl

theorem sample_low (f : Family) (w : Word) :
    sample w 0 (f.format.sampleBits - 1) = lowSample f w ∧
      sample w 16 (f.format.sampleBits - 1 + 16) = highSample f w := by
  obtain ⟨_, _, _, hpos, hle, _⟩ := Family.format_bounds f
  have hlow : f.format.sampleBits - 1 - 0 + 1 = f.format.sampleBits := by omega
  have hhigh : f.format.sampleBits - 1 + 16 - 16 + 1 = f.format.sampleBits := by omega
  constructor
  · rw [sample, extractBits_field w (by omega), hlow, lowSample]
  · rw [sample, extractBits_field w (by omega), hhigh, highSample]

include hname in
/-- The samples the decoder takes from trace words are those in them. -/
theorem traceSamples_loose (trace : List Word) :
    traceSamples (resolveLayout f.format.firmware name form) trace = samplesIn f form trace := by
  have hr := reads_resolveLayout hname form
  unfold traceSamples samplesIn
  rw [hr.fmtSample, hr.dualTrace]
  dsimp only
  by_cases hd : dualOn form = true
  · rw [if_pos hd, if_pos hd]
    exact List.map_congr_left fun w _ => (sample_low f w).1
  · rw [if_neg hd, if_neg hd]
    apply List.flatMap_congr
    intro w _
    rw [Nat.zero_add, (sample_low f w).1, (sample_low f w).2]

include hname hsamples in
theorem traceWordsOf_loose (htrace : traceOn f form = true) (e : LooseEvent f form) :
    traceWordsOf (resolveLayout f.format.firmware name form) e.words = e.trace := by
  have hr := reads_resolveLayout hname form
  have hlt : samplesOf f form < 2 ^ 16 := hsamples htrace
  have hlen : (resolveLayout f.format.firmware name form).numSamples / 2 = e.trace.length := by
    rw [hr.numSamples, Nat.mod_eq_of_lt hlt, e.trace_length, traceWords, if_pos htrace]
  have hts : (resolveLayout f.format.firmware name form).hasTS = timeOn f form := hr.hasTS
  rw [traceWordsOf, hr.hasTrace, if_pos htrace, hlen, hts, slice, LooseEvent.words]
  cases timeOn f form with
  | true => simp
  | false => simp

include hname in
theorem untimed_no_data (hdata : dataOn f form = false) (board couple : ℕ) (words : List Word) :
    let ev := untimed (Family.unpacker f) board couple
      (resolveLayout f.format.firmware name form) words
    ev.energy = 0 ∧ ev.qshort = 0 ∧ ev.qlong = 0 := by
  have hr := reads_resolveLayout hname form
  have hoff : (Family.unpacker f).hasData (resolveLayout f.format.firmware name form) = false :=
    hr.hasData.trans hdata
  intro ev
  have hword : dataWordOf (Family.unpacker f) (resolveLayout f.format.firmware name form) words = 0 := by
    rw [dataWordOf, if_neg (by rw [hoff]; decide)]
  simp only [ev, untimed, hword]
  cases f <;> exact ⟨rfl, rfl, rfl⟩

end Layout

theorem first_of_time (e : LooseEvent f form) (ht : timeOn f form = true) :
    e.words.getD 0 0 = e.time := by
  rw [LooseEvent.words, if_pos ht]
  rfl

theorem last_of_data (e : LooseEvent f form) (hd : dataOn f form = true) :
    e.words.getLastD 0 = e.data := by
  rw [LooseEvent.words, if_pos hd, ← List.append_assoc, ← List.append_assoc]
  simp

/-- What the check for unwritten words sees in an x724 event: its first or last word, if
that is not the time or energy word it is taken for. -/
theorem reservedSet_iff {name : String} (hname : f.Named name)
    (hsize : (resolveLayout f.format.firmware name form).evtSize = looseLength f form)
    (e : LooseEvent f form) :
    reservedSet (resolveLayout f.format.firmware name form) e.words = true ↔
      f = .phaX724 ∧ ¬Unsuspicious e := by
  have hr := reads_resolveLayout hname form
  have hlast : e.words.getD (looseLength f form - 1) 0 = e.words.getLastD 0 := by
    rw [← e.words_length, List.getLastD_eq_getLast?, List.getLast?_eq_getElem?,
      List.getD_eq_getElem?_getD]
  rw [reservedSet, hsize, hlast, hr.resTS, hr.resEnergy]
  by_cases hf : f = .phaX724
  · have htime : e.words.getD 0 0 &&& 0x80000000 ≠ 0 ↔
        timeOn f form = false ∧ e.words.getD 0 0 &&& 0x80000000 ≠ 0 := by
      cases ht : timeOn f form with
      | true => simp only [first_of_time e ht, e.time_clear hf]; simp
      | false => simp
    have hdata : e.words.getLastD 0 &&& 0xF3000000 ≠ 0 ↔
        dataOn f form = false ∧ e.words.getLastD 0 &&& 0xF3000000 ≠ 0 := by
      cases hd : dataOn f form with
      | true => simp only [last_of_data e hd, e.data_clear hf]; simp
      | false => simp
    rw [if_pos hf, if_pos hf, Bool.or_eq_true, decide_eq_true_eq, decide_eq_true_eq, htime, hdata,
      Unsuspicious]
    simp only [hf, true_and, not_and_or, Classical.not_imp, ne_eq]
  · rw [if_neg hf, if_neg hf]
    simp [hf]

/-- A channel aggregate of loose events, as it is found in a buffer. -/
def looseRecord (name : String) (board couple : ℕ) (events : List (LooseEvent f form)) :
    ChannelRecord :=
  ⟨⟨f.format.firmware, name⟩, board, couple, form, (events.map LooseEvent.words).flatten⟩

section Record

variable {name : String} (hname : f.Named name)
  (hsamples : traceOn f form = true → samplesOf f form < 65536) (hsize : looseLength f form ≠ 0)
  (board couple : ℕ) (events : List (LooseEvent f form))

include hname hsamples hsize

theorem looseRecord_events :
    (looseRecord name board couple events).events = events.map LooseEvent.words := by
  have hlength := looseLength_resolveLayout hname hsamples
  have hlayout : (looseRecord name board couple events).layout =
      resolveLayout f.format.firmware name form := rfl
  rw [ChannelRecord.events, hlayout]
  apply eventsOf_flatten (by rw [hlength]; omega)
  intro w hw
  obtain ⟨e, _, rfl⟩ := List.mem_map.mp hw
  rw [e.words_length, hlength]

theorem looseRecord_nEvents : (looseRecord name board couple events).nEvents = events.length := by
  rw [← events_length, looseRecord_events hname hsamples hsize, List.length_map]

theorem looseRecord_rejected : (looseRecord name board couple events).rejected = true ↔
    f = .phaX724 ∧ ∃ e ∈ events, ¬Unsuspicious e := by
  have hlength := looseLength_resolveLayout hname hsamples
  have hlayout : (looseRecord name board couple events).layout =
      resolveLayout f.format.firmware name form := rfl
  have hunpacker : (looseRecord name board couple events).kind.unpacker = Family.unpacker f :=
    unpacker_family f name
  have hchecks : f = .phaX724 → (Family.unpacker f).checksReserved = true := by
    rintro rfl
    rfl
  rw [ChannelRecord.rejected, looseRecord_events hname hsamples hsize, hlayout, hunpacker,
    Bool.and_eq_true, List.any_eq_true]
  constructor
  · rintro ⟨_, words, hin, hset⟩
    obtain ⟨e, he, rfl⟩ := List.mem_map.mp hin
    obtain ⟨hf, hsus⟩ := (reservedSet_iff hname hlength e).mp hset
    exact ⟨hf, e, he, hsus⟩
  · rintro ⟨hf, e, he, hsus⟩
    exact ⟨hchecks hf, e.words, List.mem_map_of_mem he,
      (reservedSet_iff hname hlength e).mpr ⟨hf, hsus⟩⟩

theorem looseRecord_kept (htrace : traceOn f form = true) {es : List DecodedEvent}
    (hes : Becomes (looseRecord name board couple events) es)
    (hreject : (looseRecord name board couple events).rejected = false) :
    List.Forall₂ IsKept events es := by
  have hr := reads_resolveLayout hname form
  obtain ⟨hemitted, htime⟩ := hes
  have hunpacker : (looseRecord name board couple events).kind.unpacker = Family.unpacker f :=
    unpacker_family f name
  rw [ChannelRecord.emitted, hreject, if_neg (by decide), looseRecord_events hname hsamples hsize,
    List.map_map, hunpacker] at hemitted
  have htime : timeOn f form = false → ∀ e ∈ es, e.timePs = 0 := fun ht => htime (hr.hasTS.trans ht)
  have hpairs : List.Forall₂ (fun e ev => untimed (Family.unpacker f) board couple
      (resolveLayout f.format.firmware name form) (LooseEvent.words e) = withoutTime ev) events es := by
    rw [← List.forall₂_map_right_iff, hemitted, List.forall₂_map_right_iff, List.forall₂_same]
    exact fun _ _ => rfl
  obtain ⟨hlength, hpair⟩ := List.forall₂_iff_zip.mp hpairs
  refine List.forall₂_iff_zip.mpr ⟨hlength, fun {e ev} hin => ?_⟩
  have hev := hpair hin
  have hwave := congrArg DecodedEvent.wave hev
  rw [untimed, traceWordsOf_loose hname hsamples htrace, traceSamples_loose hname] at hwave
  refine ⟨hwave.symm, fun ht => htime ht ev (List.of_mem_zip hin).2, fun hd => ?_⟩
  have hzero := untimed_no_data hname hd board couple e.words
  rw [hev] at hzero
  exact hzero

end Record

/-- A well-framed channel aggregate: its size word announces its length. -/
structure LooseChannel (f : Family) where
  size : Word
  form : Word
  events : List (LooseEvent f form)
  samples : traceOn f form = true → samplesOf f form < 65536
  nonempty : looseLength f form ≠ 0
  framed : fieldOf size 0 f.format.sizeBits = events.length * looseLength f form + 2

namespace LooseChannel

variable (c : LooseChannel f)

def payload : List Word := (c.events.map LooseEvent.words).flatten

def words : List Word := c.size :: c.form :: c.payload

theorem payload_length : c.payload.length = c.events.length * looseLength f c.form :=
  length_flatten_words LooseEvent.words_length c.events

end LooseChannel

theorem recordsIn_loose {kinds : ℕ → Option Kind} {name : String} (hname : f.Named name)
    {words : List Word} (hkind : kinds (boardOf words) = some ⟨f.format.firmware, name⟩)
    (channels : ℕ → LooseChannel f)
    (hbody : words.drop kAggHeaderWords =
      ((couples (maskOf words)).map fun c => (channels c).words).flatten) :
    recordsIn kinds (.aggregate words) = (couples (maskOf words)).map fun c =>
      looseRecord name (boardOf words) c (channels c).events := by
  have hsegments : ∀ cs : List ℕ, coupleSegments f.format.firmware name cs
      (cs.map fun c => (channels c).words).flatten =
        cs.map fun c => .channel c (channels c).form (channels c).payload := by
    intro cs
    induction cs with
    | nil => rfl
    | cons c cs ih =>
      have hn : extractBits (channels c).size
          (DataFrame.format (tables f.format.firmware name) .Size (0, 31)) =
            (channels c).payload.length + 2 := by
        rw [size_announced hname, (channels c).payload_length, ← (channels c).framed, fieldOf,
          Nat.pow_zero, Nat.div_one]
      have hevt : (resolveLayout f.format.firmware name (channels c).form).evtSize ≠ 0 := by
        rw [looseLength_resolveLayout hname (channels c).samples]
        exact (channels c).nonempty
      rw [List.map_cons, List.flatten_cons, LooseChannel.words, List.cons_append, List.cons_append,
        coupleSegments_accepted hn hevt, ih, List.map_cons]
  have hsome : (recordOf ⟨f.format.firmware, name⟩ (boardOf words) ∘ fun c =>
      .channel c (channels c).form (channels c).payload) =
        some ∘ fun c => looseRecord name (boardOf words) c (channels c).events := rfl
  simp only [recordsIn, hkind, Kind.couplesIn, hbody, hsegments, List.filterMap_map, hsome,
    List.filterMap_eq_map]

theorem becomes_flatten {records : List ChannelRecord} {ess : List (List DecodedEvent)}
    (h : List.Forall₂ Becomes records ess) :
    ess.flatten.map withoutTime = records.flatMap ChannelRecord.emitted := by
  induction h with
  | nil => rfl
  | cons hes _ ih => rw [List.flatten_cons, List.map_append, List.flatMap_cons, hes.1, ih]

/-- The part of a buffer's events that comes from one of its channel aggregates. -/
theorem becomes_split {before after : List ChannelRecord} {c : ChannelRecord}
    {ess : List (List DecodedEvent)} (h : List.Forall₂ Becomes (before ++ c :: after) ess) :
    ∃ es₀ es es₁, ess.flatten = es₀ ++ es ++ es₁ ∧
      es₀.map withoutTime = before.flatMap ChannelRecord.emitted ∧ Becomes c es ∧
      es₁.map withoutTime = after.flatMap ChannelRecord.emitted := by
  induction before generalizing ess with
  | nil =>
    obtain ⟨es, ess, hes, hrest, rfl⟩ := List.forall₂_cons_left_iff.mp h
    exact ⟨[], es, ess.flatten, rfl, rfl, hes, becomes_flatten hrest⟩
  | cons b before ih =>
    obtain ⟨es', ess, hes', hrest, rfl⟩ := List.forall₂_cons_left_iff.mp h
    obtain ⟨es₀, es, es₁, hflatten, hfirst, hes, hlast⟩ := ih hrest
    refine ⟨es' ++ es₀, es, es₁, ?_, ?_, hes, hlast⟩
    · rw [List.flatten_cons, hflatten, List.append_assoc, List.append_assoc, List.append_assoc]
    · rw [List.map_append, hes'.1, hfirst, List.flatMap_cons]

/-- What is promised of a channel aggregate among the others of a buffer: all its events
are handed out in their place, each with its trace and with zeros for what is missing, all
of them are counted as incomplete, and none of them as uninitialised. -/
def KeptAmong (d : AggregateDecoder) (r : Decoded) (before after : List ChannelRecord)
    (events : List (LooseEvent f form)) : Prop :=
  (∃ es₀ es es₁, r.events = es₀ ++ es ++ es₁ ∧
    es₀.map withoutTime = before.flatMap ChannelRecord.emitted ∧
    List.Forall₂ IsKept events es ∧
    es₁.map withoutTime = after.flatMap ChannelRecord.emitted) ∧
  r.decoder.tally.incomplete =
    d.tally.incomplete + ((before ++ after).map incompleteEvents).sum + events.length ∧
  r.decoder.tally.uninitialised =
    d.tally.uninitialised + (before ++ after).countP ChannelRecord.rejected ∧
  r.decoder.tally.uninitialisedEvents =
    d.tally.uninitialisedEvents + ((before ++ after).map rejectedEvents).sum

/-- A channel aggregate of events with a trace but without a time word, or without an
energy or charge word, anywhere in a buffer. Its events are kept unless it comes from an
x724 board with, in some event, bit 31 set in a first word that is no time word or a
reserved energy bit in a last word that is no energy word. -/
theorem missing_words_kept_iff {d : AggregateDecoder} {data : List (BitVec 8)}
    (hdata : data.length < 2 ^ 32) {name : String} (hname : f.Named name) {board couple : ℕ}
    {events : List (LooseEvent f form)} {before after : List ChannelRecord}
    (hrecords : recordsOf (kindOf d) (wordsOf data) =
      before ++ looseRecord name board couple events :: after)
    (htrace : traceOn f form = true) (hmissing : timeOn f form = false ∨ dataOn f form = false)
    (hsamples : samplesOf f form < 65536) (hsize : looseLength f form ≠ 0) :
    ∃ r, decode d data = .ok r ∧ (KeptAmong d r before after events ↔
      (f = .phaX724 → ∀ e ∈ events, Unsuspicious e)) := by
  have hsamples : traceOn f form = true → samplesOf f form < 65536 := fun _ => hsamples
  have hr := reads_resolveLayout hname form
  have hrejected := looseRecord_rejected hname hsamples hsize board couple events
  have hcount := looseRecord_nEvents hname hsamples hsize board couple events
  have hemitted := emitted_length (looseRecord name board couple events)
  have hlacks : (looseRecord name board couple events).lacks = true := by
    have hts : (looseRecord name board couple events).layout.hasTS = timeOn f form := hr.hasTS
    have hhas : (looseRecord name board couple events).kind.unpacker.hasData
        (looseRecord name board couple events).layout = dataOn f form :=
      (congrArg (fun u : Unpacker => u.hasData _) (unpacker_family f name)).trans hr.hasData
    rw [ChannelRecord.lacks, lacking, hts, hhas]
    rcases hmissing with h | h <;> simp [h]
  have hall : (segments (wordsOf data)).flatMap (recordsIn (kindOf d)) =
      before ++ looseRecord name board couple events :: after := hrecords
  obtain ⟨_, _, _, htally⟩ := run_spec d (segments (wordsOf data))
  obtain ⟨ess, hess, hbecomes⟩ := run_becomes d (segments (wordsOf data))
  rw [hall] at htally hbecomes
  have hincomplete := congrArg Tally.incomplete htally
  have huninitialised := congrArg Tally.uninitialised htally
  have hlost := congrArg Tally.uninitialisedEvents htally
  simp only [List.map_append, List.map_cons, List.sum_append, List.sum_cons, List.countP_append,
    List.countP_cons, incompleteEvents, hlacks, if_true, rejectedEvents]
    at hincomplete huninitialised hlost
  refine ⟨_, decode_ok d hdata, ?_⟩
  constructor
  · intro hkept hf e he
    by_contra hsus
    have hreject := hrejected.mpr ⟨hf, e, he, hsus⟩
    have hnone : (run segmentStep d (segments (wordsOf data))).2.tally.uninitialised =
        d.tally.uninitialised + (before ++ after).countP ChannelRecord.rejected := hkept.2.2.1
    rw [hnone, List.countP_append, if_pos hreject] at huninitialised
    omega
  · intro hclean
    have hreject : (looseRecord name board couple events).rejected = false := by
      apply Bool.eq_false_iff.mpr
      intro h
      obtain ⟨hf, e, he, hsus⟩ := hrejected.mp h
      exact hsus (hclean hf e he)
    obtain ⟨es₀, es, es₁, hflatten, hfirst, hes, hlast⟩ := becomes_split hbecomes
    rw [hreject, if_neg (by decide), hcount] at hemitted
    rw [hemitted] at hincomplete
    rw [hreject, if_neg (by decide)] at huninitialised hlost
    refine ⟨⟨es₀, es, es₁, hess.trans hflatten, hfirst,
      looseRecord_kept hname hsamples hsize board couple events htrace hes hreject, hlast⟩,
      hincomplete.trans ?_, huninitialised.trans ?_, hlost.trans ?_⟩
    · simp only [List.map_append, List.sum_append]
      omega
    · rw [List.countP_append, Nat.add_zero]
    · simp only [List.map_append, List.sum_append, Nat.zero_add]

/-- Trace and energy recorded, no time stamp, two samples. -/
def traceAndEnergy : Word := 0x60000001

def traceEvent (w : Word) : LooseEvent .phaX724 traceAndEnergy where
  time := 0
  trace := [w]
  extras := 0
  data := 0x64
  trace_length := by
    show 1 = traceWords .phaX724 traceAndEnergy
    decide
  time_clear := fun _ => by decide
  data_clear := fun _ => by decide

def traceChannel (w : Word) : LooseChannel .phaX724 where
  size := 4
  form := traceAndEnergy
  events := [traceEvent w]
  samples := fun _ => by decide
  nonempty := by decide
  framed := by
    show fieldOf 4 0 21 = 1 * looseLength .phaX724 traceAndEnergy + 2
    decide

theorem traceChannel_words (w : Word) : (traceChannel w).words = [4, traceAndEnergy, w, 0x64] := by
  have htime : timeOn .phaX724 traceAndEnergy = false := by decide
  have hextras : extrasOn .phaX724 traceAndEnergy = false := by decide
  have hdata : dataOn .phaX724 traceAndEnergy = true := by decide
  simp [LooseChannel.words, LooseChannel.payload, traceChannel, LooseEvent.words, htime, hextras,
    hdata, traceEvent]

theorem eightWords_long : kAggHeaderWords ≤ 8 := by decide

theorem eightWords_sync : isSync 0xA0000008#32 = true := by decide

theorem eightWords_announced : aggLength 0xA0000008#32 = 8 := by decide

def traceAggregate (w : Word) : BoardAggregate where
  words := [0xA0000008#32, 0x08000001#32, 0, 0, 4, traceAndEnergy, w, 0x64]
  long := eightWords_long
  sync := eightWords_sync
  announced := eightWords_announced

def v1724 : AggregateDecoder := registerBoard {} 1 .pha "V1724" 10000

theorem traceAggregate_records (w : Word) :
    recordsOf (kindOf v1724) (wordsOf (payload [traceAggregate w])) =
      [] ++ looseRecord "V1724" 1 0 [traceEvent w] :: [] := by
  have hname : Family.phaX724.Named "V1724" := ⟨by decide, by decide⟩
  have hboard : boardOf (traceAggregate w).words = 1 := by
    show (0x08000001#32).toNat / 2 ^ 27 = 1
    decide
  have hmask : couples (maskOf (traceAggregate w).words) = [0] := by
    show couples ((0x08000001#32).toNat % 2 ^ 8) = [0]
    decide
  have hkind : kindOf v1724 (boardOf (traceAggregate w).words) =
      some ⟨Family.phaX724.format.firmware, "V1724"⟩ := by
    rw [hboard]
    decide
  have hrecords := recordsIn_loose hname hkind (fun _ => traceChannel w)
    (by rw [hmask, List.map_singleton, List.flatten_singleton, traceChannel_words]; rfl)
  rw [wordsOf_payload, recordsOf, segments_stream_only, List.map_singleton, List.flatMap_singleton,
    hrecords, hboard, hmask]
  rfl

/-- With bit 31 of the trace word set, the event is taken for one that was never written. -/
theorem missing_words_rejected :
    ∃ r, decode v1724 (payload [traceAggregate 0x80000000]) = .ok r ∧
      traceOn .phaX724 traceAndEnergy = true ∧ timeOn .phaX724 traceAndEnergy = false ∧
      samplesOf .phaX724 traceAndEnergy < 65536 ∧ looseLength .phaX724 traceAndEnergy ≠ 0 ∧
      recordsOf (kindOf v1724) (wordsOf (payload [traceAggregate 0x80000000])) =
        [] ++ looseRecord "V1724" 1 0 [traceEvent 0x80000000] :: [] ∧
      r.events = [] ∧ r.decoder.tally.uninitialisedEvents = 1 ∧
      ¬KeptAmong v1724 r [] [] [traceEvent 0x80000000] := by
  have hshort : (payload [traceAggregate 0x80000000]).length < 2 ^ 32 := by decide
  have hrun : decodeWords v1724 (wordsOf (payload [traceAggregate 0x80000000])) =
      segmentStep v1724 (.aggregate (traceAggregate 0x80000000).words) := by
    rw [wordsOf_payload, decodeWords, segments_stream_only, List.map_singleton, run_cons, run_nil,
      List.append_nil]
  have hevents : (segmentStep v1724 (.aggregate (traceAggregate 0x80000000).words)).1 = [] := by
    decide +kernel
  have hlost : (segmentStep v1724 (.aggregate
      (traceAggregate 0x80000000).words)).2.tally.uninitialisedEvents = 1 := by
    decide +kernel
  refine ⟨_, decode_ok v1724 hshort, by decide, by decide, by decide, by decide,
    traceAggregate_records _, ?_, ?_, ?_⟩
  · rw [hrun]
    exact hevents
  · rw [hrun]
    exact hlost
  · rw [hrun]
    intro hkept
    have hnone := hkept.2.2.2
    rw [decoded, hlost] at hnone
    exact absurd hnone (by decide)

/-- With a plain trace word it is kept. -/
theorem missing_words_kept_plain :
    ∃ r, decode v1724 (payload [traceAggregate 0x00110022]) = .ok r ∧
      KeptAmong v1724 r [] [] [traceEvent 0x00110022] := by
  have hname : Family.phaX724.Named "V1724" := ⟨by decide, by decide⟩
  have hplain : Unsuspicious (traceEvent 0x00110022) := ⟨fun _ => by decide, fun h => by
    cases h⟩
  obtain ⟨r, hr, hiff⟩ := missing_words_kept_iff (by decide) hname
    (traceAggregate_records 0x00110022) (by decide) (Or.inl (by decide)) (by decide) (by decide)
  refine ⟨r, hr, hiff.mpr fun _ e he => ?_⟩
  rw [List.mem_singleton.mp he]
  exact hplain

end MissingWords
end CaenDaq
