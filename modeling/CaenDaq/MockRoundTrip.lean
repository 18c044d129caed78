import CaenDaq.BoardIsolation
import CaenDaq.MockDigitizer
import CaenDaq.StreamRoundTrip

/-!
# The mock board and the decoder agree

The words that the mock makes up are an aggregate of the format that the boards write, so
what it has put into them comes out of the decoder.
-/

namespace CaenDaq
namespace MockDigitizer

open DataFrame AggregateDecoder AggregateStream BoardStream BoardFormat Transducer
  DecoderRefinement EventRoundTrip StreamRoundTrip BoardIsolation

theorem lor_shift {a n : ℕ} (h : a < 2 ^ n) (b : ℕ) : a ||| b <<< n = a + b * 2 ^ n := by
  rw [Nat.shiftLeft_eq, Nat.lor_comm, Nat.mul_comm, ← Nat.two_pow_add_eq_or_of_lt h,
    Nat.add_comm]

theorem sample_lt (idx : ℕ) : sample idx < 2 ^ 14 := by
  unfold sample
  simp only
  split <;> split <;> omega

variable {o : MockOptions}

/-- Off, or a trace that the format word can tell the length of. -/
def Short (o : MockOptions) : Prop := o.waveforms = true → o.traceSamples < 65536

theorem sampleCount_lt (h : Short o) : sampleCount o < 65536 := by
  unfold sampleCount
  split
  · next ht =>
    have hwaveforms : o.waveforms = true := (Bool.and_eq_true_iff.mp ht).1
    have hshort := h hwaveforms
    omega
  · decide

theorem sampleCount_mul (o : MockOptions) : sampleCount o / 8 * 8 = sampleCount o ∧
    traceWordCount o * 2 = sampleCount o := by
  unfold traceWordCount sampleCount
  split <;> omega

theorem formWord_toNat (h : Short o) :
    (formWord o).toNat = 0x60000000 + if traced o then 2 ^ 27 + sampleCount o / 8 else 0 := by
  have hcount := sampleCount_lt h
  have hunits : sampleCount o / 8 < 2 ^ 16 := by omega
  have hmask : sampleCount o / 8 &&& 0xFFFF = sampleCount o / 8 :=
    Nat.and_two_pow_sub_one_of_lt_two_pow hunits
  have hlow : sampleCount o / 8 ||| 1 <<< 27 = sampleCount o / 8 + 1 * 2 ^ 27 :=
    lor_shift (by omega) 1
  have hall : (2 ^ 27 + sampleCount o / 8) ||| 3 <<< 29 =
      2 ^ 27 + sampleCount o / 8 + 3 * 2 ^ 29 := lor_shift (by omega) 3
  have hflags : 1 <<< 30 ||| 1 <<< 29 = 3 <<< 29 := by decide
  unfold formWord
  simp only [hflags, hmask]
  split
  · rw [Nat.lor_comm (1 <<< 27), hlow, Nat.lor_comm, Nat.one_mul, Nat.add_comm _ (2 ^ 27), hall,
      word, word_toNat (by omega)]
    omega
  · rfl

theorem getLsbD_div (w : Word) (i : ℕ) : w.getLsbD i = decide (w.toNat / 2 ^ i % 2 = 1) := by
  rw [← BitVec.testBit_toNat, Nat.testBit_eq_decide_div_mod_eq]

/-- The flags of the format word: time stamp and charge are on, extras and a second trace
are off. -/
theorem formWord_flags (h : Short o) :
    (formWord o).getLsbD 27 = traced o ∧ (formWord o).getLsbD 28 = false ∧
      (formWord o).getLsbD 29 = true ∧ (formWord o).getLsbD 30 = true ∧
      (formWord o).getLsbD 31 = false := by
  have hcount := sampleCount_lt h
  have hvalue := formWord_toNat h
  simp only [getLsbD_div, hvalue]
  cases traced o with
  | true =>
    simp only [if_true, decide_eq_true_eq, decide_eq_false_iff_not]
    omega
  | false =>
    simp only [Bool.false_eq_true, if_false]
    decide

theorem formWord_samples (h : Short o) (ht : traced o = true) :
    fieldOf (formWord o) 0 16 * 8 = sampleCount o := by
  have hcount := sampleCount_lt h
  have height := (sampleCount_mul o).1
  rw [fieldOf, formWord_toNat h, if_pos ht]
  omega

def familyOf (dpp : DppType) : Family := if dpp = .pha then .phaX730 else .psdX730

theorem familyOf_cases (dpp : DppType) : familyOf dpp = .phaX730 ∨ familyOf dpp = .psdX730 := by
  unfold familyOf
  split
  · exact Or.inl rfl
  · exact Or.inr rfl

variable {f : Family}

theorem traceOn_mock (hf : f = .phaX730 ∨ f = .psdX730) (h : Short o) :
    traceOn f (formWord o) = traced o := by
  rcases hf with rfl | rfl
  · exact (formWord_flags h).1
  · exact (formWord_flags h).1

theorem extrasOn_mock (hf : f = .phaX730 ∨ f = .psdX730) (h : Short o) :
    extrasOn f (formWord o) = false := by
  rcases hf with rfl | rfl
  · exact (formWord_flags h).2.1
  · exact (formWord_flags h).2.1

theorem samplesOf_mock (hf : f = .phaX730 ∨ f = .psdX730) (h : Short o) (ht : traced o = true) :
    samplesOf f (formWord o) = sampleCount o := by
  rcases hf with rfl | rfl
  · exact formWord_samples h ht
  · exact formWord_samples h ht

theorem traceWords_mock (hf : f = .phaX730 ∨ f = .psdX730) (h : Short o) :
    traceWords f (formWord o) = traceWordCount o := by
  rw [traceWords, traceOn_mock hf h]
  split
  · next ht => rw [samplesOf_mock hf h ht, traceWordCount]
  · next ht => rw [traceWordCount, sampleCount, if_neg ht]

theorem eventLength_mock (hf : f = .phaX730 ∨ f = .psdX730) (h : Short o) :
    eventLength f (formWord o) = evtSize o := by
  rw [eventLength, traceWords_mock hf h, extrasOn_mock hf h, evtSize]
  simp only [Bool.false_eq_true, if_false]
  omega

theorem recorded_mock (hf : f = .phaX730 ∨ f = .psdX730) (h : Short o) :
    Recorded f (formWord o) := by
  obtain ⟨_, _, htime, hdata, _⟩ := formWord_flags h
  refine ⟨?_, ?_, fun ht => ?_⟩
  · rcases hf with rfl | rfl <;> exact htime
  · rcases hf with rfl | rfl <;> exact hdata
  · rw [traceOn_mock hf h] at ht
    rw [samplesOf_mock hf h ht]
    exact sampleCount_lt h

structure Made (o : MockOptions) (x : MockEvent) : Prop where
  channel : x.channel < 2
  timestamp : x.timestamp < 2 ^ 31
  wave : x.wave = (List.range (sampleCount o)).map sample
  energy : x.energy < 2 ^ 15
  qshort : x.qshort < 2 ^ 15
  qlong : x.qlong < 2 ^ 16
  pha : o.dpp = .pha → x.qshort = 0 ∧ x.qlong = 0
  psd : o.dpp ≠ .pha → x.energy = 0

theorem fabricateEvent_made (o : MockOptions) (t : EmitTimes) (e : ℕ) (lfsr : Word) :
    Made o (fabricateEvent o t e lfsr).1 ∧ (fabricateEvent o t e lfsr).1.channel = e % 2 := by
  unfold fabricateEvent fabricateValues
  simp only
  split
  · next hpha =>
    refine ⟨⟨?_, ?_, rfl, ?_, Nat.two_pow_pos _, Nat.two_pow_pos _, fun _ => ⟨rfl, rfl⟩,
      absurd hpha⟩, rfl⟩
    · exact Nat.mod_lt _ (by decide)
    · exact Nat.mod_lt _ (by decide)
    · exact Nat.mod_lt _ (by decide)
  · next hpsd =>
    refine ⟨⟨?_, ?_, rfl, Nat.two_pow_pos _, ?_, ?_, fun h => absurd h hpsd, fun _ => rfl⟩, rfl⟩
    · exact Nat.mod_lt _ (by decide)
    · exact Nat.mod_lt _ (by decide)
    · exact Nat.mod_lt _ (by decide)
    · exact Nat.mod_lt _ (by decide)

theorem fabricateEvents_made (o : MockOptions) (t : EmitTimes) (n e : ℕ) (lfsr : Word) :
    (∀ x ∈ (fabricateEvents o t n e lfsr).1, Made o x) ∧
      (fabricateEvents o t n e lfsr).1.map MockEvent.channel =
        (List.range' e n).map (· % 2) := by
  induction n generalizing e lfsr with
  | zero => exact ⟨fun x hx => absurd hx List.not_mem_nil, rfl⟩
  | succ n ih =>
    obtain ⟨hmade, hchannel⟩ := fabricateEvent_made o t e lfsr
    obtain ⟨hrest, hchannels⟩ := ih (e + 1) (fabricateEvent o t e lfsr).2
    refine ⟨fun x hx => ?_, ?_⟩
    · rcases List.mem_cons.mp hx with rfl | hx
      · exact hmade
      · exact hrest x hx
    · rw [fabricateEvents, List.map_cons, hchannel, hchannels, List.range'_succ, List.map_cons]

def decodedOf (board : ℕ) (x : MockEvent) : DecodedEvent :=
  { board := board, channel := x.channel, timestamp := x.timestamp, energy := x.energy
    qshort := x.qshort, qlong := x.qlong, pileup := x.pileup
    wave := x.wave.map (BitVec.ofNat 16) }

def traceHalves (o : MockOptions) : List (Half × Half) :=
  (List.range (traceWordCount o)).map fun k => (⟨sample (2 * k), 0⟩, ⟨sample (2 * k + 1), 0⟩)

def toEvent (hf : f = .phaX730 ∨ f = .psdX730) (h : Short o) (x : MockEvent) (hx : Made o x) :
    BoardFormat.Event f (formWord o) where
  tag := x.timestamp
  top := x.channel
  trace := traceHalves o
  extrasHigh := 0
  extrasLow := 0
  value := if f = .phaX730 then x.energy else x.qshort
  pileup := x.pileup
  high := if f = .phaX730 then 0 else x.qlong
  rest := 0
  tag_lt := by
    rcases hf with rfl | rfl <;> exact hx.timestamp
  top_lt := by
    rcases hf with rfl | rfl <;> exact hx.channel
  trace_length := by
    rw [traceWords_mock hf h, traceHalves, List.length_map, List.length_range]
  half_lt := by
    intro w hw half hhalf
    obtain ⟨k, _, rfl⟩ := List.mem_map.mp hw
    have hsample : half.sample < 2 ^ 14 ∧ half.probes = 0 := by
      rcases List.mem_pair.mp hhalf with rfl | rfl
      · exact ⟨sample_lt _, rfl⟩
      · exact ⟨sample_lt _, rfl⟩
    rw [hsample.2]
    rcases hf with rfl | rfl <;> exact ⟨hsample.1, by decide⟩
  extrasHigh_lt := by decide
  extrasLow_lt := by decide
  value_lt := by
    split
    · exact hx.energy
    · exact hx.qshort
  high_lt := by
    rcases hf with rfl | rfl
    · rw [if_pos rfl]
      exact Nat.two_pow_pos _
    · exact hx.qlong
  rest_lt := Nat.two_pow_pos _
  reserved := fun _ => by decide

section Event

variable (hf : f = .phaX730 ∨ f = .psdX730) (h : Short o) {x : MockEvent} (hx : Made o x)

theorem timeWord_mock : word (x.channel <<< 31 ||| (x.timestamp &&& 0x7FFFFFFF)) =
    (toEvent hf h x hx).timeWord := by
  have hmask : x.timestamp &&& 0x7FFFFFFF = x.timestamp :=
    Nat.and_two_pow_sub_one_of_lt_two_pow hx.timestamp
  have htime : f.format.timeBits = 31 := by rcases hf with rfl | rfl <;> rfl
  rw [Event.timeWord, htime, hmask, Nat.lor_comm, lor_shift hx.timestamp]
  rfl

theorem traceWords_words (hf : f = .phaX730 ∨ f = .psdX730) :
    (List.range (traceWordCount o)).map traceWord = (traceHalves o).map (Event.traceWord f) := by
  have hbits : f.format.sampleBits = 14 := by rcases hf with rfl | rfl <;> rfl
  rw [traceHalves, List.map_map]
  refine List.map_congr_left fun k _ => ?_
  have hmask : ∀ idx, sample idx &&& 0x3FFF = sample idx := fun idx =>
    Nat.and_two_pow_sub_one_of_lt_two_pow (sample_lt idx)
  have hlow : sample (2 * k) < 2 ^ 16 := (sample_lt _).trans (by decide)
  simp only [Function.comp, traceWord, hmask, Event.traceWord, Event.halfBits, hbits,
    lor_shift hlow, Nat.zero_mul, Nat.add_zero]
  rfl

theorem dataWord_mock (hdpp : f = familyOf o.dpp) :
    dataWord o.dpp x = (toEvent hf h x hx).dataWord := by
  have hpileup : ∀ n : ℕ, n < 2 ^ 15 → n ||| x.pileup.toNat <<< 15 = n + x.pileup.toNat * 2 ^ 15 :=
    fun n hn => lor_shift hn _
  rw [Event.dataWord]
  unfold dataWord familyOf at *
  split
  · next hpha =>
    rw [if_pos hpha] at hdpp
    subst hdpp
    rw [hpileup _ hx.energy]
    simp [toEvent, word]
  · next hpsd =>
    rw [if_neg hpsd] at hdpp
    subst hdpp
    have hlow : x.qshort + x.pileup.toNat * 2 ^ 15 < 2 ^ 16 := by
      have hbit := Bool.toNat_le x.pileup
      have hqshort := hx.qshort
      omega
    rw [hpileup _ hx.qshort, lor_shift hlow]
    simp [toEvent, word]

theorem eventWords_mock (hdpp : f = familyOf o.dpp) :
    eventWords o x = (toEvent hf h x hx).words := by
  have hwords : (toEvent hf h x hx).words = (toEvent hf h x hx).timeWord ::
      ((traceHalves o).map (Event.traceWord f) ++ [(toEvent hf h x hx).dataWord]) := by
    rw [Event.words, extrasOn_mock hf h]
    rfl
  rw [hwords, eventWords, timeWord_mock hf h hx, traceWords_words hf, dataWord_mock hf h hx hdpp]

theorem range_pairs (g : ℕ → Sample) (n : ℕ) :
    (List.range n).flatMap (fun k => [g (2 * k), g (2 * k + 1)]) = (List.range (n * 2)).map g := by
  induction n with
  | zero => rfl
  | succ n ih =>
    have hnext : (n + 1) * 2 = 2 * n + 1 + 1 := by omega
    have htwo : n * 2 = 2 * n := Nat.mul_comm n 2
    rw [htwo] at ih
    rw [List.range_succ, List.flatMap_append, ih, hnext, List.range_succ, List.range_succ,
      List.map_append, List.map_append, List.append_assoc]
    rfl

include hf h hx in
theorem samples_mock : (toEvent hf h x hx).samples = x.wave.map (BitVec.ofNat 16) := by
  have hdual : dualOn (formWord o) = false := (formWord_flags h).2.2.2.2
  have hsamples : (toEvent hf h x hx).samples = (List.range (traceWordCount o)).flatMap
      fun k => [BitVec.ofNat 16 (sample (2 * k)), BitVec.ofNat 16 (sample (2 * k + 1))] := by
    rw [Event.samples, hdual, if_neg Bool.false_ne_true]
    exact List.flatMap_map _ _ _
  rw [hsamples, range_pairs (fun idx => BitVec.ofNat 16 (sample idx)), (sampleCount_mul o).2,
    hx.wave, List.map_map]
  rfl

theorem meaning_mock (hdpp : f = familyOf o.dpp) (board : ℕ) :
    (toEvent hf h x hx).meaning board 0 = decodedOf board x := by
  have hsamples := samples_mock hf h hx
  have hextras := extrasOn_mock hf h
  have hcounter : (toEvent hf h x hx).counter = x.timestamp := by
    have hextension : (toEvent hf h x hx).extension = 0 := by
      rw [Event.extension, Event.extensionBits, hextras]
      rfl
    rw [Event.counter, hextension, Nat.zero_mul, Nat.add_zero]
    rfl
  have hflags : Event.hasFlags f (formWord o) = false := by
    rw [Event.hasFlags, hextras]
    rfl
  unfold Event.meaning
  rw [hsamples, hcounter, hflags]
  unfold familyOf at hdpp
  split at hdpp
  · next hpha =>
    subst hdpp
    obtain ⟨hqshort, hqlong⟩ := hx.pha hpha
    simp [decodedOf, toEvent, Family.format, hqshort, hqlong]
  · next hpsd =>
    subst hdpp
    have henergy := hx.psd hpsd
    simp [decodedOf, toEvent, Family.format, henergy]

end Event

theorem events_mock (h : Short o) {xs : List MockEvent} (hxs : ∀ x ∈ xs, Made o x) (board : ℕ) :
    ∃ es : List (BoardFormat.Event (familyOf o.dpp) (formWord o)),
      es.map Event.words = xs.map (eventWords o) ∧
        es.map (fun e => e.meaning board 0) = xs.map (decodedOf board) := by
  induction xs with
  | nil => exact ⟨[], rfl, rfl⟩
  | cons x xs ih =>
    have hx : Made o x := hxs x List.mem_cons_self
    obtain ⟨es, hwords, hmeaning⟩ := ih fun y hy => hxs y (List.mem_cons_of_mem _ hy)
    refine ⟨toEvent (familyOf_cases o.dpp) h x hx :: es, ?_, ?_⟩
    · rw [List.map_cons, List.map_cons, hwords, eventWords_mock _ h hx rfl]
    · rw [List.map_cons, List.map_cons, hmeaning, meaning_mock _ h hx rfl]

section Aggregate

variable {s : MockDigitizer} (h : Short s.opt)
  {es : List (BoardFormat.Event (familyOf s.opt.dpp) (formWord s.opt))} (hlen : es.length < 32)

include h hlen in
theorem coupleSize_lt : coupleSize s.opt es.length < 2 ^ 21 := by
  have hcount := sampleCount_lt h
  have hsize : evtSize s.opt ≤ 32770 := by
    unfold evtSize traceWordCount
    omega
  have hmul : es.length * evtSize s.opt ≤ 31 * 32770 :=
    Nat.mul_le_mul (Nat.lt_succ_iff.mp hlen) hsize
  unfold coupleSize
  omega

def toChannel (h : Short s.opt) (hlen : es.length < 32) :
    ChannelAggregate (familyOf s.opt.dpp) where
  form := formWord s.opt
  recorded := recorded_mock (familyOf_cases s.opt.dpp) h
  events := es
  sizeRest := 0
  fits := by
    have hsize := coupleSize_lt h hlen
    rw [eventLength_mock (familyOf_cases s.opt.dpp) h]
    refine Nat.lt_of_lt_of_le hsize (Nat.pow_le_pow_right (by decide) ?_)
    rcases familyOf_cases s.opt.dpp with hf | hf <;> rw [hf] <;> decide
  sizeRest_lt := Nat.two_pow_pos _

theorem toChannel_length : (toChannel h hlen).length = coupleSize s.opt es.length := by
  rw [ChannelAggregate.length, coupleSize, ← eventLength_mock (familyOf_cases s.opt.dpp) h]
  rfl

theorem couples_one : couples 1 = [0] := by decide

def toAggregate (h : Short s.opt) (hlen : es.length < 32) (fail : Bool) : Aggregate where
  family := familyOf s.opt.dpp
  board := s.info.boardRegId
  fail := fail
  middle := 0
  mask := 1
  header₂ := word (s.counter &&& 0x7FFFFF)
  header₃ := word s.counter
  channels := fun _ => toChannel h hlen
  board_lt := Nat.mod_lt _ (by decide)
  middle_lt := by decide
  mask_lt := by decide
  fits := by
    have hsize := coupleSize_lt h hlen
    rw [couples_one, List.map_cons, List.map_nil, List.flatten_cons, List.flatten_nil,
      List.append_nil, ChannelAggregate.words_length, toChannel_length]
    omega

theorem toAggregate_body (fail : Bool) :
    (toAggregate h hlen fail).body = (toChannel h hlen).words := by
  have hone : couples (toAggregate h hlen fail).mask = [0] := couples_one
  rw [Aggregate.body, hone, List.map_cons, List.map_nil, List.flatten_cons, List.flatten_nil,
    List.append_nil]
  rfl

theorem toAggregate_length (fail : Bool) :
    (toAggregate h hlen fail).length = aggLen s.opt es.length := by
  rw [Aggregate.length, toAggregate_body, ChannelAggregate.words_length, toChannel_length, aggLen]

theorem syncWord_mock (fail : Bool) :
    word (0xA0000000 ||| (aggLen s.opt es.length &&& 0x0FFFFFFF)) =
      (toAggregate h hlen fail).syncWord := by
  have hsize := coupleSize_lt h hlen
  have hlt : aggLen s.opt es.length < 2 ^ 28 := by
    unfold aggLen
    omega
  have hmask : aggLen s.opt es.length &&& 0x0FFFFFFF = aggLen s.opt es.length :=
    Nat.and_two_pow_sub_one_of_lt_two_pow hlt
  have hnibble : aggLen s.opt es.length ||| 0xA0000000 = aggLen s.opt es.length + 0xA * 2 ^ 28 :=
    lor_shift hlt 0xA
  rw [hmask, Nat.lor_comm, hnibble, Aggregate.syncWord, toAggregate_length, Nat.add_comm]
  rfl

theorem headWord_mock (fail : Bool) :
    word ((s.info.boardRegId &&& 0x1F) <<< 27 ||| fail.toNat <<< 26 ||| 0x01) =
      (toAggregate h hlen fail).headWord := by
  have hboard : s.info.boardRegId < 2 ^ 5 := Nat.mod_lt _ (by decide)
  have hmask : s.info.boardRegId &&& 0x1F = s.info.boardRegId :=
    Nat.and_two_pow_sub_one_of_lt_two_pow hboard
  have hfail : 1 ||| fail.toNat <<< 26 = 1 + fail.toNat * 2 ^ 26 := lor_shift (by decide) _
  have hlow : 1 + fail.toNat * 2 ^ 26 < 2 ^ 27 := by
    have hbit := Bool.toNat_le fail
    omega
  have hsum : (1 + fail.toNat * 2 ^ 26) ||| s.info.boardRegId <<< 27 =
      1 + fail.toNat * 2 ^ 26 + s.info.boardRegId * 2 ^ 27 := lor_shift hlow _
  have hvalue : 1 + fail.toNat * 2 ^ 26 + s.info.boardRegId * 2 ^ 27 =
      s.info.boardRegId * 2 ^ 27 + fail.toNat * 2 ^ 26 + 0 * 2 ^ 8 + 1 := by omega
  rw [hmask, Nat.lor_assoc, Nat.lor_comm, Nat.lor_comm _ 1, hfail, hsum, hvalue]
  rfl

theorem sizeWord_mock : word (coupleSize s.opt es.length) = (toChannel h hlen).sizeWord := by
  have hrest : (toChannel h hlen).sizeRest = 0 := rfl
  rw [ChannelAggregate.sizeWord, toChannel_length, hrest, Nat.zero_mul, Nat.add_zero]
  rfl

theorem aggregateWords_mock {f : Fabricated} (hevents : f.events.length = es.length)
    (hwords : es.map Event.words = f.events.map (eventWords s.opt)) :
    aggregateWords s f = (toAggregate h hlen f.fail).words := by
  have hpayload : (toChannel h hlen).payload = f.events.flatMap (eventWords s.opt) := by
    rw [ChannelAggregate.payload, List.flatMap_def, ← hwords]
    rfl
  rw [Aggregate.words, toAggregate_body, ChannelAggregate.words, hpayload, aggregateWords, hevents,
    syncWord_mock h hlen f.fail, headWord_mock h hlen f.fail, sizeWord_mock h hlen]
  rfl

theorem toAggregate_sent (fail : Bool) : (toAggregate h hlen fail).sent.map SentEvent.meaning =
    es.map fun e => e.meaning s.info.boardRegId 0 := by
  have hone : couples (toAggregate h hlen fail).mask = [0] := couples_one
  rw [Aggregate.sent, hone, List.map_cons, List.map_nil, List.flatten_cons, List.flatten_nil,
    List.append_nil, List.map_map]
  rfl

end Aggregate

theorem registered_mock {s : MockDigitizer} (hdpp : s.opt.dpp = .pha ∨ s.opt.dpp = .psd)
    (d : AggregateDecoder) {a : Aggregate} (hfamily : a.family = familyOf s.opt.dpp)
    (hboard : a.board = s.info.boardRegId) : Registered (registerBoardInfo d s.info) a := by
  have hfound : (registerBoardInfo d s.info).boards a.board =
      some (newBoard s.opt.dpp "MOCK-V1730" (timeStampPs s.info)) := by
    rw [registerBoardInfo_boards, if_pos hboard]
    rfl
  have hfirmware : toCaenDpp s.opt.dpp = a.family.format.firmware := by
    rw [hfamily]
    rcases hdpp with hpha | hpsd
    · rw [hpha]
      rfl
    · rw [hpsd]
      rfl
  have hnamed : a.family.Named "MOCK-V1730" := by
    rw [hfamily]
    rcases familyOf_cases s.opt.dpp with hf | hf
    · rw [hf]
      exact ⟨by decide, by decide⟩
    · rw [hf]
      exact ⟨by decide, by decide⟩
  exact ⟨_, hfound, hfirmware, hnamed⟩

theorem fabricate_events (s : MockDigitizer) :
    (fabricate s).events.length = 8 + (nextRand s.lfsr).toNat % 24 ∧
      (∀ x ∈ (fabricate s).events, Made s.opt x) ∧
      (fabricate s).events.map MockEvent.channel =
        (List.range (fabricate s).events.length).map (· % 2) := by
  have hevents := fabricateEvents_made s.opt
    (emitTimes s (8 + (nextRand s.lfsr).toNat % 24)) (8 + (nextRand s.lfsr).toNat % 24) 0
    (if s.opt.failEvery ≠ 0 then nextRand (nextRand s.lfsr) else nextRand s.lfsr)
  obtain ⟨hmade, hchannels⟩ := hevents
  have hlen := congrArg List.length hchannels
  rw [List.length_map, List.length_map, List.length_range'] at hlen
  refine ⟨hlen, hmade, ?_⟩
  rw [List.range_eq_range', fabricate, hlen]
  exact hchannels

theorem read_emits {s : MockDigitizer} {now : ℤ} {bytes : List (BitVec 8)}
    (hemits : (read s now).1 = some bytes) :
    bytes = bytesOf (aggregateWords s (emission s)) ∧
      aggLen s.opt (emission s).events.length * 4 ≤ (read s now).2.bufferSize := by
  unfold read at *
  split at hemits
  · exact absurd hemits nofun
  · next hrunning =>
    rw [if_neg hrunning]
    split at hemits
    · exact absurd hemits nofun
    · next hlater =>
      rw [if_neg hlater]
      exact ⟨(Option.some.inj hemits).symm, Nat.le_max_right _ _⟩

theorem decode_aggregate {d : AggregateDecoder} {a : Aggregate} (hregistered : Registered d a) :
    ∃ r, decode d (bytesOf a.words) = .ok r ∧ r.count = a.sent.length ∧
      (r.events.map fun e => { e with timePs := 0 }) = a.sent.map SentEvent.meaning ∧
      r.decoder.tally = { d.tally with
        wave := r.decoder.tally.wave
        boardFail := d.tally.boardFail + a.fail.toNat } := by
  have hfits : a.length < 2 ^ 28 := a.fits
  have hsize : (bytesOf a.words).length < 2 ^ 32 := by
    rw [bytesOf_length, a.words_length]
    omega
  have hwords : wordsOf (bytesOf a.words) = a.words := by
    have hrest := wordsOf_bytesOf a.words []
    rw [List.append_nil] at hrest
    exact hrest.trans (List.append_nil a.words)
  have hsegments : segments a.words = [.aggregate a.words] := by
    have hnil : segments [] = [] := segments_short (by decide)
    have hwalk := segments_aggregate (complete a) []
    rw [List.append_nil, hnil] at hwalk
    exact hwalk
  obtain ⟨hout, _, _, htally⟩ := segmentStep_aggregate hregistered
  have hfields := run_stamp_fields (timebase d) a.sent
  rw [← hout] at hfields
  have hrun : run segmentStep d [.aggregate a.words] = segmentStep d (.aggregate a.words) := by
    rw [run_cons, run_nil, List.append_nil]
  refine ⟨_, decode_ok d hsize, ?_⟩
  rw [decodeWords, hwords, hsegments, hrun]
  exact ⟨length_of_map_eq hfields, hfields, htally⟩

/-- The mock board and the decoder agree: what a read emits is one complete aggregate within
the scratch buffer, and a decoder that knows the board gets the made-up events out of it. -/
theorem mock_decoded (s : MockDigitizer) (now : ℤ) (hdpp : s.opt.dpp = .pha ∨ s.opt.dpp = .psd)
    (hshort : Short s.opt) {bytes : List (BitVec 8)} (hemits : (read s now).1 = some bytes)
    (d : AggregateDecoder) :
    (∃ a : BoardAggregate, bytes = bytesOf a.words) ∧
      bytes.length ≤ (read s now).2.bufferSize ∧
      (emission s).events.length = 8 + (nextRand s.lfsr).toNat % 24 ∧
      (emission s).events.map MockEvent.channel =
        (List.range (emission s).events.length).map (· % 2) ∧
      ∃ r, decode (registerBoardInfo d s.info) bytes = .ok r ∧
        r.count = (emission s).events.length ∧
        (r.events.map fun e => { e with timePs := 0 }) =
          (emission s).events.map (decodedOf s.info.boardRegId) ∧
        r.decoder.tally = { d.tally with
          wave := r.decoder.tally.wave
          boardFail := d.tally.boardFail + (emission s).fail.toNat } := by
  obtain ⟨hbytes, hroom⟩ := read_emits hemits
  obtain ⟨hcount, hmade, hchannels⟩ :=
    fabricate_events { s with nextEmit := s.nextEmit + period s.opt }
  obtain ⟨es, hwords, hmeaning⟩ := events_mock hshort hmade s.info.boardRegId
  have hes : (emission s).events.length = es.length := (length_of_map_eq hwords).symm
  have hlen : es.length < 32 := by
    have hbound : (emission s).events.length < 32 := by
      rw [emission, hcount]
      omega
    exact hes ▸ hbound
  have hagg : aggregateWords s (emission s) =
      (toAggregate hshort hlen (emission s).fail).words :=
    aggregateWords_mock hshort hlen hes hwords
  have hregistered : Registered (registerBoardInfo d s.info)
      (toAggregate hshort hlen (emission s).fail) := registered_mock hdpp d rfl rfl
  obtain ⟨r, hdecode, hsent, hfields, htally⟩ := decode_aggregate hregistered
  rw [toAggregate_sent, hmeaning] at hfields
  have hevents : r.count = (emission s).events.length := by
    have hsame := length_of_map_eq (toAggregate_sent hshort hlen (emission s).fail)
    rw [hsent, hsame, hes]
  rw [← hagg, ← hbytes] at hdecode
  refine ⟨⟨complete (toAggregate hshort hlen (emission s).fail), ?_⟩, ?_, hcount, hchannels,
    r, hdecode, hevents, hfields, htally⟩
  · rw [hbytes, hagg]
    rfl
  · rw [hbytes, bytesOf_length, hagg, Aggregate.words_length, toAggregate_length, ← hes,
      Nat.mul_comm]
    exact hroom

/-- A board that injects the FAIL bit into every aggregate, started at time zero. -/
def failingMock : MockDigitizer :=
  start (openBoard (construct { waveforms := true, failEvery := 1, boardId := 35 })) 0

theorem mock_decoded_failing :
    (∃ a : BoardAggregate, bytesOf (aggregateWords failingMock (emission failingMock)) =
      bytesOf a.words) ∧
      (bytesOf (aggregateWords failingMock (emission failingMock))).length ≤
        (read failingMock 0).2.bufferSize ∧
      (emission failingMock).events.length = 8 + (nextRand 0x1234567).toNat % 24 ∧
      (emission failingMock).events.map MockEvent.channel =
        (List.range (emission failingMock).events.length).map (· % 2) ∧
      ∃ r, decode (registerBoardInfo {} failingMock.info)
          (bytesOf (aggregateWords failingMock (emission failingMock))) = .ok r ∧
        r.count = (emission failingMock).events.length ∧
        (r.events.map fun e => { e with timePs := 0 }) =
          (emission failingMock).events.map (decodedOf 3) ∧
        r.decoder.tally = { wave := r.decoder.tally.wave, boardFail := 1 } :=
  mock_decoded failingMock 0 (Or.inr rfl) (fun _ => by decide) rfl {}

end MockDigitizer
end CaenDaq
