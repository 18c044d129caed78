import CaenDaq.Containment
import CaenDaq.EventAccounting
import CaenDaq.MissingWords

/-!
# The stride of the event loop

The event size that the unpackers walk with against the number of words that an x730 event
has. The number of samples is kept in 16 bits and the event size is made from it, so both
are right below 65536 samples only.
-/

namespace CaenDaq
namespace EventStride

open Checked Transducer DataFrame AggregateDecoder AggregateStream DecoderRefinement BoardStream
open BoardFormat EventRoundTrip StreamRoundTrip Ledger Containment MissingWords

/-- The `NumSamples` field of an x730 format word, in units of eight samples. -/
def numSamples (form : Word) : ℕ := fieldOf form 0 16

/-- Number of words of an event: one for each word that is recorded, and its trace. -/
def trueLength (f : Family) (form : Word) : ℕ :=
  (timeOn f form).toNat + (extrasOn f form).toNat + (dataOn f form).toNat + 4 * numSamples form

def traceLength (form : Word) : ℕ :=
  if dualOn form then 4 * numSamples form else 8 * numSamples form

section Layout

variable {f : Family} {form : Word} (hf : f = .phaX730 ∨ f = .psdX730)

include hf

theorem samplesOf_units : samplesOf f form = 8 * numSamples form := by
  rcases hf with rfl | rfl
  · exact Nat.mul_comm _ 8
  · exact Nat.mul_comm _ 8

theorem looseLength_eq (ht : traceOn f form = true) : looseLength f form = trueLength f form := by
  rw [looseLength, trueLength, traceWords, if_pos ht, samplesOf_units hf, toNat_flag, toNat_flag,
    toNat_flag]
  omega

variable {name : String} (hname : f.Named name)

include hname

theorem evtSize_eq (ht : traceOn f form = true) :
    (resolveLayout f.format.firmware name form).evtSize + 4 * numSamples form =
      trueLength f form + 4 * (numSamples form % 8192) := by
  have hr := reads_resolveLayout hname form
  have hsamples : samplesOf f form % 2 ^ 16 / 2 = 4 * (numSamples form % 8192) := by
    rw [samplesOf_units hf]
    omega
  have htime : form.getLsbD f.format.timeFlag = timeOn f form := rfl
  have hdata : form.getLsbD f.format.dataFlag = dataOn f form := rfl
  rw [resolveLayout_evtSize, hr.hasTS, hr.hasExtras, hr.hasTrace, hr.numSamples, ht, if_pos rfl,
    hr.energyOrCharge, hsamples, htime, hdata, trueLength]
  omega

theorem stride_iff (ht : traceOn f form = true) :
    (resolveLayout f.format.firmware name form).evtSize = trueLength f form ↔
      numSamples form < 8192 := by
  have hsize := evtSize_eq hf hname ht
  omega

/-- Where the stride is too short it is less than half of an event. -/
theorem stride_short (ht : traceOn f form = true) (hlong : 8192 ≤ numSamples form) :
    2 * (resolveLayout f.format.firmware name form).evtSize < trueLength f form := by
  have hsize := evtSize_eq hf hname ht
  have htime := Bool.toNat_le (timeOn f form)
  have hextras := Bool.toNat_le (extrasOn f form)
  have hdata := Bool.toNat_le (dataOn f form)
  unfold trueLength at *
  omega

end Layout

/-- A channel aggregate of complete events with traces, of any content. -/
structure TracedChannel (f : Family) where
  size : Word
  form : Word
  events : List (LooseEvent f form)
  traced : traceOn f form = true
  framed : fieldOf size 0 f.format.sizeBits = events.length * trueLength f form + 2

namespace TracedChannel

variable {f : Family} (c : TracedChannel f)

def payload : List Word := (c.events.map LooseEvent.words).flatten

def words : List Word := c.size :: c.form :: c.payload

theorem payload_length (hf : f = .phaX730 ∨ f = .psdX730) :
    c.payload.length = c.events.length * trueLength f c.form := by
  have hevent : ∀ e : LooseEvent f c.form, e.words.length = trueLength f c.form := fun e =>
    e.words_length.trans (looseLength_eq hf c.traced)
  exact length_flatten_words hevent c.events

end TracedChannel

/-- Words that the loop over the couples steps over: for each couple a channel aggregate
whose header it accepts. -/
def SteppedOver (k : Kind) : List ℕ → List Word → Prop
  | [], lead => lead = []
  | _ :: done, lead => ∃ size form payload rest, lead = size :: form :: (payload ++ rest) ∧
    extractBits size (DataFrame.format (tables k.dpp k.name) .Size (0, 31)) = payload.length + 2 ∧
    (k.layout form).evtSize ≠ 0 ∧ SteppedOver k done rest

/-- The channel aggregate stands in an aggregate of a decoded board, where the loop over the
couples gets to it. -/
structure Placed {f : Family} (d : AggregateDecoder) (a : BoardAggregate) (k : Kind)
    (c : TracedChannel f) (couple : ℕ) : Prop where
  board : kindOf d (boardOf a.words) = some k
  place : ∃ done later lead tail, couples (maskOf a.words) = done ++ couple :: later ∧
    a.words.drop kAggHeaderWords = lead ++ (c.words ++ tail) ∧ SteppedOver k done lead

theorem coupleSegments_lead {k : Kind} {done : List ℕ} {lead : List Word}
    (h : SteppedOver k done lead) (cs : List ℕ) (words : List Word) :
    ∃ segs, coupleSegments k.dpp k.name (done ++ cs) (lead ++ words) =
        segs ++ coupleSegments k.dpp k.name cs words ∧
      ∀ seg ∈ segs, ∃ c ∈ done, ∃ form payload, seg = .channel c form payload := by
  induction done generalizing lead with
  | nil =>
    obtain rfl : lead = [] := h
    exact ⟨[], rfl, fun seg hseg => absurd hseg List.not_mem_nil⟩
  | cons c done ih =>
    obtain ⟨size, form, payload, rest, rfl, hsize, hevt, hrest⟩ := h
    obtain ⟨segs, hsegs, hchannels⟩ := ih hrest
    refine ⟨.channel c form payload :: segs, ?_, fun seg hseg => ?_⟩
    · rw [List.cons_append, List.cons_append, List.cons_append, List.append_assoc,
        coupleSegments_accepted hsize hevt, hsegs, List.cons_append]
    · rcases List.mem_cons.mp hseg with rfl | hseg
      · exact ⟨c, List.mem_cons_self, form, payload, rfl⟩
      · obtain ⟨b, hb, hchannel⟩ := hchannels seg hseg
        exact ⟨b, List.mem_cons_of_mem _ hb, hchannel⟩

theorem couples_around {mask couple : ℕ} {done later : List ℕ}
    (h : couples mask = done ++ couple :: later) :
    couple < 8 ∧ (∀ b ∈ done, b < 8 ∧ b ≠ couple) ∧ ∀ b ∈ later, b < 8 ∧ b ≠ couple := by
  have hnodup : (done ++ couple :: later).Nodup := h ▸ List.nodup_range.filter _
  have hsmall : ∀ b ∈ done ++ couple :: later, b < 8 := fun b hb => couples_lt (h ▸ hb)
  obtain ⟨_, hbehind, hapart⟩ := List.nodup_append.mp hnodup
  refine ⟨hsmall couple (by simp), fun b hb => ⟨hsmall b (by simp [hb]), ?_⟩,
    fun b hb => ⟨hsmall b (by simp [hb]), ?_⟩⟩
  · exact hapart b hb couple List.mem_cons_self
  · rintro rfl
    exact (List.nodup_cons.mp hbehind).1 hb

def ofCouple (couple : ℕ) (events : List DecodedEvent) : List DecodedEvent :=
  events.filter fun e => e.channel / 2 = couple

theorem ofCouple_withoutTime (couple : ℕ) (events : List DecodedEvent) :
    (ofCouple couple events).map withoutTime = ofCouple couple (events.map withoutTime) := by
  rw [ofCouple, ofCouple, List.filter_map]
  rfl

section Decode

variable {f : Family} (hf : f = .phaX730 ∨ f = .psdX730) {name : String} (hname : f.Named name)

include hf hname

theorem emitted_couple {c : ChannelRecord} (hkind : c.kind = ⟨f.format.firmware, name⟩)
    (hcouple : c.couple < 8) : ∀ e ∈ c.emitted, e.channel / 2 = c.couple := by
  intro e he
  have hbit : c.layout.hasChannelBit = true := by
    have hr := reads_resolveLayout hname c.form
    rw [ChannelRecord.layout, hkind]
    refine hr.hasChannelBit.trans ?_
    rcases hf with rfl | rfl <;> rfl
  unfold ChannelRecord.emitted at he
  split at he
  · exact absurd he List.not_mem_nil
  · obtain ⟨words, _, rfl⟩ := List.mem_map.mp he
    rw [untimed_channel, channelOf, if_pos hbit, Nat.and_one_is_mod]
    omega

/-- Nothing is rejected: of an x730 board no bit is known to be always clear. -/
theorem not_rejected {c : ChannelRecord} (hkind : c.kind = ⟨f.format.firmware, name⟩) :
    c.rejected = false := by
  have hr := reads_resolveLayout hname c.form
  have hx724 : f ≠ .phaX724 := by rcases hf with rfl | rfl <;> decide
  have hlayout : c.layout = resolveLayout f.format.firmware name c.form := by
    rw [ChannelRecord.layout, hkind]
    rfl
  have hnone : ∀ words, reservedSet c.layout words = false := by
    intro words
    rw [reservedSet, hlayout, hr.resTS, hr.resEnergy, if_neg hx724, if_neg hx724]
    simp
  rw [ChannelRecord.rejected, Bool.and_eq_false_iff]
  refine Or.inr (List.any_eq_false.mpr fun words _ => ?_)
  rw [hnone]
  exact Bool.false_ne_true

theorem ofCouple_others {board couple : ℕ} {segs : List CoupleSegment}
    (h : ∀ c form payload, .channel c form payload ∈ segs → c < 8 ∧ c ≠ couple) :
    ofCouple couple ((segs.filterMap (recordOf ⟨f.format.firmware, name⟩ board)).flatMap
      ChannelRecord.emitted) = [] := by
  refine List.filter_eq_nil_iff.mpr fun e he hcouple => ?_
  obtain ⟨x, hx, hin⟩ := List.mem_flatMap.mp he
  obtain ⟨seg, hseg, hrecord⟩ := List.mem_filterMap.mp hx
  cases seg with
  | truncated => cases hrecord
  | malformed form => cases hrecord
  | channel c form payload =>
    cases hrecord
    obtain ⟨hlt, hne⟩ := h c form payload hseg
    have hown := emitted_couple hf hname rfl hlt e hin
    exact hne (hown.symm.trans (of_decide_eq_true hcouple))

variable (c : TracedChannel f)

theorem header_accepted : extractBits c.size
    (DataFrame.format (tables f.format.firmware name) .Size (0, 31)) = c.payload.length + 2 := by
  rw [size_announced hname, c.payload_length hf, ← c.framed, fieldOf, Nat.pow_zero, Nat.div_one]

theorem ofCouple_own {board couple : ℕ} (hcouple : couple < 8) :
    ofCouple couple (looseRecord name board couple c.events).emitted =
      (looseRecord name board couple c.events).emitted :=
  List.filter_eq_self.mpr fun e he => decide_eq_true (emitted_couple hf hname rfl hcouple e he)

/-- What is found where the channel aggregate stands: it, and then other couples. If the
stride is zero there is nothing. -/
theorem ofCouple_found {board couple : ℕ} {later : List ℕ} (tail : List Word)
    (hcouple : couple < 8) (hlater : ∀ b ∈ later, b < 8 ∧ b ≠ couple) :
    ofCouple couple (((coupleSegments f.format.firmware name (couple :: later)
      (c.words ++ tail)).filterMap (recordOf ⟨f.format.firmware, name⟩ board)).flatMap
        ChannelRecord.emitted) = (looseRecord name board couple c.events).emitted := by
  rw [TracedChannel.words, List.cons_append, List.cons_append]
  by_cases hstride : (resolveLayout f.format.firmware name c.form).evtSize = 0
  · have hnone : (looseRecord name board couple c.events).emitted = [] := by
      refine List.length_eq_zero_iff.mp ?_
      have hzero : (looseRecord name board couple c.events).layout.evtSize = 0 := hstride
      rw [emitted_length, not_rejected hf hname rfl, if_neg Bool.false_ne_true,
        ChannelRecord.nEvents, hzero, Nat.div_zero]
    rw [hnone, coupleSegments, if_pos (Or.inr (Or.inr hstride))]
    rfl
  · rw [coupleSegments_accepted (header_accepted hf hname c) hstride]
    have hrest : ∀ b form payload, .channel b form payload ∈
        coupleSegments f.format.firmware name later tail → b < 8 ∧ b ≠ couple := by
      intro b form payload hseg
      obtain ⟨before, after, hsplit⟩ := List.append_of_mem hseg
      exact hlater b (EventAccounting.coupleSegments_position hsplit).1
    have hown : recordOf ⟨f.format.firmware, name⟩ board (.channel couple c.form c.payload) =
        some (looseRecord name board couple c.events) := rfl
    rw [List.filterMap_cons_some hown, List.flatMap_cons, ofCouple, List.filter_append, ← ofCouple,
      ← ofCouple, ofCouple_own hf hname c hcouple, ofCouple_others hf hname hrest, List.append_nil]

theorem ofCouple_placed {d : AggregateDecoder} {a : BoardAggregate} {couple : ℕ}
    (h : Placed d a ⟨f.format.firmware, name⟩ c couple) :
    ofCouple couple ((recordsIn (kindOf d) (.aggregate a.words)).flatMap ChannelRecord.emitted) =
      (looseRecord name (boardOf a.words) couple c.events).emitted := by
  obtain ⟨done, later, lead, tail, hmask, hbody, hlead⟩ := h.place
  obtain ⟨hcouple, hdone, hlater⟩ := couples_around hmask
  obtain ⟨segs, hsegs, hchannels⟩ := coupleSegments_lead hlead (couple :: later) (c.words ++ tail)
  have hfirst : ∀ b form payload, .channel b form payload ∈ segs → b < 8 ∧ b ≠ couple := by
    intro b form payload hseg
    obtain ⟨b', hb, form', payload', heq⟩ := hchannels _ hseg
    cases heq
    exact hdone b hb
  simp only [recordsIn, h.board, Kind.couplesIn, hmask, hbody, hsegs, List.filterMap_append,
    List.flatMap_append]
  rw [ofCouple, List.filter_append, ← ofCouple, ← ofCouple, ofCouple_others hf hname hfirst,
    List.nil_append, ofCouple_found hf hname c tail hcouple hlater]

/-- What a decode hands out of the couple. -/
theorem decode_couple {d : AggregateDecoder} {a : BoardAggregate} {couple : ℕ}
    (h : Placed d a ⟨f.format.firmware, name⟩ c couple) :
    ∃ r, decode d (payload [a]) = .ok r ∧ (ofCouple couple r.events).map withoutTime =
      (looseRecord name (boardOf a.words) couple c.events).emitted := by
  obtain ⟨hout, _⟩ := segmentStep_spec d (.aggregate a.words)
  refine ⟨_, decode_ok d (payload_short a), ?_⟩
  rw [wordsOf_payload, decodeWords_one, ofCouple_withoutTime, ← ofCouple_placed hf hname c h,
    ← hout]
  rfl

theorem emitted_count (board couple : ℕ) :
    (looseRecord name board couple c.events).emitted.length =
      c.events.length * trueLength f c.form /
        (resolveLayout f.format.firmware name c.form).evtSize := by
  have hlength := c.payload_length hf
  rw [emitted_length, not_rejected hf hname rfl, if_neg Bool.false_ne_true, ← hlength]
  rfl

theorem emitted_trace (hshort : numSamples c.form < 8192) (board couple : ℕ) :
    ∀ e ∈ (looseRecord name board couple c.events).emitted, e.wave.length = traceLength c.form := by
  intro e he
  have hr := reads_resolveLayout hname c.form
  have hstride := (stride_iff hf hname c.traced).mpr hshort
  have hsamples : (resolveLayout f.format.firmware name c.form).numSamples / 2 =
      4 * numSamples c.form := by
    rw [hr.numSamples, samplesOf_units hf]
    omega
  unfold ChannelRecord.emitted at he
  rw [not_rejected hf hname rfl, if_neg Bool.false_ne_true] at he
  obtain ⟨words, hwords, rfl⟩ := List.mem_map.mp he
  have hlength : words.length = trueLength f c.form := (eventsOf_length hwords).trans hstride
  have htrace : (traceWordsOf (resolveLayout f.format.firmware name c.form) words).length =
      4 * numSamples c.form := by
    have hts : (resolveLayout f.format.firmware name c.form).hasTS = timeOn f c.form := hr.hasTS
    rw [traceWordsOf, hr.hasTrace, if_pos c.traced, hsamples]
    refine slice_length ?_
    rw [hlength, trueLength, hts]
    cases timeOn f c.form with
    | true => simp only [if_true, Bool.toNat_true]; omega
    | false => simp only [Bool.false_eq_true, if_false, Bool.toNat_false]; omega
  show (traceSamples (resolveLayout f.format.firmware name c.form)
    (traceWordsOf (resolveLayout f.format.firmware name c.form) words)).length = _
  unfold traceSamples traceLength
  rw [hr.dualTrace]
  cases dualOn c.form with
  | true => rw [if_pos rfl, if_pos rfl, List.length_map, htrace]
  | false =>
    rw [if_neg Bool.false_ne_true, if_neg Bool.false_ne_true]
    simp only [List.length_flatMap, List.length_cons, List.length_nil, List.map_const',
      List.sum_replicate_nat, htrace]
    omega

omit hf hname in
/-- The channel aggregate is walked as it should be: the stride is the length of an event, all
events come out and no others, and each has its trace. -/
structure Exact (k : Kind) (c : TracedChannel f) (couple : ℕ) (r : Decoded) : Prop where
  stride : (k.layout c.form).evtSize = trueLength f c.form
  events : (ofCouple couple r.events).length = c.events.length
  traces : ∀ e ∈ ofCouple couple r.events, e.wave.length = traceLength c.form

/-- If there are events, as many come out as there are exactly where the traces have fewer
than 65536 samples and the events any words. -/
theorem emitted_count_iff (hne : c.events ≠ []) (board couple : ℕ) :
    (looseRecord name board couple c.events).emitted.length = c.events.length ↔
      numSamples c.form < 8192 ∧ 0 < trueLength f c.form := by
  have hpos : 0 < c.events.length := List.length_pos_iff.mpr hne
  rw [emitted_count hf hname]
  by_cases hshort : numSamples c.form < 8192
  · rw [(stride_iff hf hname c.traced).mpr hshort]
    by_cases hlen : 0 < trueLength f c.form
    · rw [Nat.mul_div_cancel _ hlen]
      exact iff_of_true rfl ⟨hshort, hlen⟩
    · rw [Nat.eq_zero_of_not_pos hlen, Nat.div_zero]
      exact iff_of_false hpos.ne fun hcond => absurd hcond.2 (lt_irrefl 0)
  · refine iff_of_false ?_ fun hcond => hshort hcond.1
    have htwice := stride_short hf hname c.traced (not_lt.mp hshort)
    generalize (resolveLayout f.format.firmware name c.form).evtSize = stride at htwice
    rcases Nat.eq_zero_or_pos stride with rfl | hstride
    · rw [Nat.div_zero]
      exact hpos.ne
    · -- one event more than there are would fit into the payload
      have hmul : (c.events.length + 1) * stride ≤ c.events.length * trueLength f c.form :=
        calc (c.events.length + 1) * stride ≤ c.events.length * 2 * stride :=
              Nat.mul_le_mul_right _ (by omega)
          _ = c.events.length * (2 * stride) := Nat.mul_assoc _ _ _
          _ ≤ c.events.length * trueLength f c.form := Nat.mul_le_mul_left _ htwice.le
      have hmore : c.events.length + 1 ≤ c.events.length * trueLength f c.form / stride :=
        (Nat.le_div_iff_mul_le hstride).mpr hmul
      omega

/-- The event stride is right exactly for traces of fewer than 65536 samples, but that of a
format that records nothing at all no events are handed out. Where there are events, their
number alone is right in the same cases. -/
theorem stride_exact_iff {d : AggregateDecoder} {a : BoardAggregate} {couple : ℕ}
    (h : Placed d a ⟨f.format.firmware, name⟩ c couple) :
    ∃ r, decode d (payload [a]) = .ok r ∧
      (Exact ⟨f.format.firmware, name⟩ c couple r ↔
        numSamples c.form < 8192 ∧ (c.events = [] ∨ 0 < trueLength f c.form)) ∧
      (c.events ≠ [] → ((ofCouple couple r.events).length = c.events.length ↔
        numSamples c.form < 8192 ∧ 0 < trueLength f c.form)) := by
  obtain ⟨r, hr, hown⟩ := decode_couple hf hname c h
  have hcount : (ofCouple couple r.events).length =
      (looseRecord name (boardOf a.words) couple c.events).emitted.length := by
    rw [← hown, List.length_map]
  have hstride := stride_iff hf hname c.traced
  have hsome := fun hne => emitted_count_iff hf hname c hne (boardOf a.words) couple
  rw [← hcount] at hsome
  refine ⟨r, hr, ⟨fun hexact => ?_, fun hcond => ?_⟩, hsome⟩
  · by_cases hnil : c.events = []
    · exact ⟨hstride.mp hexact.stride, Or.inl hnil⟩
    · obtain ⟨hshort, hlen⟩ := (hsome hnil).mp hexact.events
      exact ⟨hshort, Or.inr hlen⟩
  · obtain ⟨hshort, hwords⟩ := hcond
    refine ⟨hstride.mpr hshort, ?_, fun e he => ?_⟩
    · by_cases hnil : c.events = []
      · rw [hcount, emitted_count hf hname, hnil, List.length_nil, Nat.zero_mul, Nat.zero_div]
      · exact (hsome hnil).mpr ⟨hshort, hwords.resolve_left hnil⟩
    · have hin : withoutTime e ∈ (looseRecord name (boardOf a.words) couple c.events).emitted :=
        hown ▸ List.mem_map_of_mem he
      exact emitted_trace hf hname c hshort (boardOf a.words) couple (withoutTime e) hin

end Decode

def v1730 : AggregateDecoder := registerBoard {} 1 .pha "V1730" 2000

theorem named_v1730 : Family.phaX730.Named "V1730" := ⟨by decide, by decide⟩

def shortForm : Word := 0x68000001

def shortEvent : LooseEvent .phaX730 shortForm where
  time := 1000
  trace := [1, 2, 3, 4]
  extras := 0
  data := 0x64
  trace_length := by decide
  time_clear := nofun
  data_clear := nofun

def shortChannel : TracedChannel .phaX730 where
  size := 8
  form := shortForm
  events := [shortEvent]
  traced := by decide
  framed := by decide

/-- An empty channel aggregate of couple 0, and one event of couple 1. -/
def shortAggregate : BoardAggregate where
  words := [0xA000000E#32, 0x08000003#32, 0, 0, 2, shortForm] ++ shortChannel.words
  long := by decide
  sync := by decide
  announced := by decide

theorem shortAggregate_placed :
    Placed v1730 shortAggregate ⟨.pha, "V1730"⟩ shortChannel 1 where
  board := by decide
  place := ⟨[0], [], [2, shortForm], [], by decide, by decide, 2, shortForm, [], [], rfl,
    by decide, by decide, rfl⟩

theorem stride_exact_short :
    ∃ r, decode v1730 (payload [shortAggregate]) = .ok r ∧
      Exact ⟨.pha, "V1730"⟩ shortChannel 1 r := by
  obtain ⟨r, hr, hexact, _⟩ := stride_exact_iff (Or.inl rfl) named_v1730 shortChannel
    shortAggregate_placed
  exact ⟨r, hr, hexact.mpr ⟨by decide, Or.inr (by decide)⟩⟩

def longForm : Word := 0x68002000

def longEvent : LooseEvent .phaX730 longForm where
  time := 1000
  trace := List.replicate 32768 0
  extras := 0
  data := 0x64
  trace_length := by
    rw [List.length_replicate]
    decide
  time_clear := nofun
  data_clear := nofun

def longChannel : TracedChannel .phaX730 where
  size := 32772
  form := longForm
  events := [longEvent]
  traced := by decide
  framed := by
    show fieldOf 32772 0 31 = 1 * trueLength .phaX730 longForm + 2
    decide

theorem longChannel_length : longChannel.words.length = 32772 := by
  have hpayload : longChannel.payload.length = 1 * trueLength .phaX730 longForm :=
    longChannel.payload_length (Or.inl rfl)
  have hlength : trueLength .phaX730 longForm = 32770 := by decide
  rw [TracedChannel.words, List.length_cons, List.length_cons, hpayload, hlength]

theorem longAggregate_framed {mask : Word} {body : List Word} (h : body.length = 32772) :
    let words := 0xA0008008#32 :: mask :: 0 :: 0 :: body
    kAggHeaderWords ≤ words.length ∧ isSync (words.getD 0 0) = true ∧
      aggLength (words.getD 0 0) = words.length := by
  have hsync : isSync 0xA0008008#32 = true ∧ aggLength 0xA0008008#32 = 32776 := by decide
  intro words
  have hlength : words.length = 32776 := by simp only [words, List.length_cons, h]
  rw [hlength]
  exact ⟨by decide, hsync⟩

def longAggregate : BoardAggregate where
  words := 0xA0008008#32 :: 0x08000001#32 :: 0 :: 0 :: longChannel.words
  long := (longAggregate_framed longChannel_length).1
  sync := (longAggregate_framed longChannel_length).2.1
  announced := (longAggregate_framed longChannel_length).2.2

theorem longAggregate_placed : Placed v1730 longAggregate ⟨.pha, "V1730"⟩ longChannel 0 where
  board := by
    show kindOf v1730 ((0x08000001#32).toNat / 2 ^ 27) = _
    decide
  place := by
    refine ⟨[], [], [], [], ?_, ?_, rfl⟩
    · show couples ((0x08000001#32).toNat % 2 ^ 8) = [0]
      decide
    · rw [List.nil_append, List.append_nil]
      rfl

/-- The number of samples is kept as zero, and each two words are taken for an event. -/
theorem stride_truncated :
    longChannel.events.length = 1 ∧ Placed v1730 longAggregate ⟨.pha, "V1730"⟩ longChannel 0 ∧
      ∃ r, decode v1730 (payload [longAggregate]) = .ok r ∧
        (ofCouple 0 r.events).length = 16385 ∧ ¬Exact ⟨.pha, "V1730"⟩ longChannel 0 r := by
  obtain ⟨r, hr, hown⟩ := decode_couple (Or.inl rfl) named_v1730 longChannel longAggregate_placed
  have hcount : (ofCouple 0 r.events).length = 16385 := by
    have hemitted := emitted_count (Or.inl rfl) named_v1730 longChannel 1 0
    have hwords : trueLength .phaX730 longForm = 32770 := by decide
    have hstride : (resolveLayout .pha "V1730" longForm).evtSize = 2 := by decide
    have hlength := congrArg List.length hown
    rw [List.length_map] at hlength
    refine hlength.trans (hemitted.trans ?_)
    show 1 * trueLength .phaX730 longForm / (resolveLayout .pha "V1730" longForm).evtSize = 16385
    rw [hwords, hstride]
  refine ⟨rfl, longAggregate_placed, r, hr, hcount, fun hexact => ?_⟩
  have hone : (ofCouple 0 r.events).length = 1 := hexact.events
  omega

end EventStride
end CaenDaq
