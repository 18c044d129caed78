import CaenDaq.BoardFormat
import Mathlib.Data.Nat.Bitwise
import Mathlib.Tactic.Ring

/-!
# Decoding inverts the encoding of an event

Field by field and word by word, the words of an event give back what the reference
encoding of `BoardFormat` put in, for every family and every combination of optional
words.
-/

namespace CaenDaq
namespace EventRoundTrip

open Checked Transducer DataFrame AggregateDecoder AggregateStream BoardStream BoardFormat

def Family.unpacker (f : Family) : Unpacker :=
  match f.format.firmware with
  | .pha => phaUnpacker
  | .psd => psdUnpacker

theorem bitAt_getLsbD (w : Word) (i : ℕ) : bitAt w i = w.getLsbD i := by
  rw [bitAt_eq, ← BitVec.testBit_toNat, Nat.testBit_eq_decide_div_mod_eq]

/-- The resolved layout says what the family's table says. -/
structure Reads (f : Family) (form : Word) (l : DataLayout) : Prop where
  hasTS : l.hasTS = form.getLsbD f.format.timeFlag
  hasData : (Family.unpacker f).hasData l = form.getLsbD f.format.dataFlag
  hasTrace : l.hasTrace = traceOn f form
  hasExtras : l.hasExtras = extrasOn f form
  dualTrace : l.dualTrace = dualOn form
  numSamples : l.numSamples = samplesOf f form % 2 ^ 16
  extrasConfig : l.extrasConfig = f.format.hasMode
  extrasMode : l.extrasMode = modeOf f form
  hasChannelBit : l.hasChannelBit = f.format.channelBit
  fmtTS : l.fmtTS = (0, f.format.timeBits - 1)
  tsBits : l.tsBits = f.format.timeBits
  fmtSample : l.fmtSample = (0, f.format.sampleBits - 1)
  fmtExtras : f.format.firmware = .pha → l.fmtExtras = (16, 15 + f.format.highBits)
  energyOrCharge : l.hasEnergy.toNat + l.hasCharge.toNat = (form.getLsbD f.format.dataFlag).toNat
  resTS : l.resTS = if f = .phaX724 then 0x80000000 else 0
  resEnergy : l.resEnergy = if f = .phaX724 then 0xF3000000 else 0

theorem extractBits_field (form : Word) {lo hi : ℕ} (h : hi < 32) :
    extractBits form (lo, hi) = fieldOf form lo (hi - lo + 1) := extractBits_eq h

theorem fieldOf_lt (form : Word) (lo width : ℕ) : fieldOf form lo width < 2 ^ width :=
  Nat.mod_lt _ (Nat.two_pow_pos width)

def Family.tables : Family → Tables
  | .phaX724 => .phaX724
  | .phaX730 => .phaX730
  | .psdX730 => .psdX730
  | .psdX720 => .psdX720

theorem tables_named {f : Family} {name : String} (h : f.Named name) :
    tables f.format.firmware name = Family.tables f ∧
      isX724Family name = decide (f = .phaX724) := by
  cases f with
  | phaX724 => simp [tables, Family.format, Family.tables, h.1, h.2]
  | phaX730 => simp [tables, Family.format, Family.tables, h.1, h.2]
  | psdX730 => simp [tables, Family.format, Family.tables, h.1, h.2]
  | psdX720 => simp [tables, Family.format, Family.tables, h.1, h.2.1, h.2.2]

theorem reads_resolveLayout {f : Family} {name : String} (h : f.Named name) (form : Word) :
    Reads f form (resolveLayout f.format.firmware name form) := by
  obtain ⟨htables, hx724⟩ := tables_named h
  have hmode : fieldOf form 24 3 < 256 := lt_trans (fieldOf_lt form 24 3) (by decide)
  simp only [resolveLayout, htables, hx724]
  cases f <;> constructor <;>
    simp [Family.format, Family.tables, enabled, produceFlags, bitAt_getLsbD, Family.unpacker,
      phaUnpacker, psdUnpacker, traceOn, extrasOn, dualOn, config, produceConfigs, hmode,
      produceNumSamples, extractBits_field, samplesOf, modeOf, produceFormats, DataFrame.format,
      rangeWidth]

theorem eventLength_resolveLayout {f : Family} {name : String} (h : f.Named name) {form : Word}
    (hrec : Recorded f form) :
    (resolveLayout f.format.firmware name form).evtSize = eventLength f form := by
  have hr := reads_resolveLayout h form
  have htrace : (if traceOn f form then samplesOf f form % 2 ^ 16 / 2 else 0) =
      traceWords f form := by
    unfold traceWords
    by_cases ht : traceOn f form = true
    · have hlt : samplesOf f form < 2 ^ 16 := hrec.samples ht
      rw [if_pos ht, if_pos ht, Nat.mod_eq_of_lt hlt]
    · rw [if_neg ht, if_neg ht]
  rw [resolveLayout_evtSize, hr.hasTS, hr.hasExtras, hr.hasTrace, hr.numSamples, htrace,
    hr.energyOrCharge, hrec.data, hrec.time, eventLength]
  cases extrasOn f form <;> simp only [Bool.toNat_true, Bool.toNat_false, if_true, if_false,
    Bool.false_eq_true] <;> omega

theorem pack_lt {a b m n : ℕ} (ha : a < 2 ^ m) (hb : b < 2 ^ n) : a + b * 2 ^ m < 2 ^ (m + n) := by
  have hmul : (b + 1) * 2 ^ m ≤ 2 ^ n * 2 ^ m := Nat.mul_le_mul_right _ hb
  rw [Nat.add_mul, Nat.one_mul] at hmul
  rw [Nat.pow_add, Nat.mul_comm (2 ^ m)]
  omega

theorem pack_mod {a m : ℕ} (ha : a < 2 ^ m) (b : ℕ) : (a + b * 2 ^ m) % 2 ^ m = a := by
  rw [Nat.add_mul_mod_self_right, Nat.mod_eq_of_lt ha]

theorem pack_div {a m : ℕ} (ha : a < 2 ^ m) (b : ℕ) : (a + b * 2 ^ m) / 2 ^ m = b := by
  rw [Nat.add_mul_div_right _ _ (Nat.two_pow_pos m), Nat.div_eq_of_lt ha, Nat.zero_add]

theorem pack_testBit {a m i : ℕ} (ha : a < 2 ^ m) (hi : i < m) (b : ℕ) :
    (a + b * 2 ^ m).testBit i = a.testBit i := by
  have h := Nat.testBit_mod_two_pow (a + b * 2 ^ m) m i
  rw [pack_mod ha b, decide_eq_true hi, Bool.true_and] at h
  exact h.symm

theorem word_toNat {n : ℕ} (h : n < 2 ^ 32) : (BitVec.ofNat 32 n).toNat = n := by
  rw [BitVec.toNat_ofNat, Nat.mod_eq_of_lt h]

theorem extractBits_low {w : Word} {width : ℕ} (hpos : 0 < width) (hw : width ≤ 32) :
    extractBits w (0, width - 1) = w.toNat % 2 ^ width := by
  rw [extractBits_field w (by omega), fieldOf, Nat.pow_zero, Nat.div_one]
  congr 2
  omega

theorem and_bit_ne_zero (n i : ℕ) : decide (n &&& 2 ^ i ≠ 0) = n.testBit i := by
  rw [Nat.and_two_pow]
  cases n.testBit i <;> simp

theorem two_bits_ne_zero (n i j : ℕ) :
    decide (n &&& (2 ^ i ||| 2 ^ j) ≠ 0) = (n.testBit i || n.testBit j) := by
  rw [← and_bit_ne_zero n i, ← and_bit_ne_zero n j, ← Bool.decide_or, Nat.and_or_distrib_left,
    decide_eq_decide, ne_eq, Nat.or_eq_zero_iff, not_and_or]

/-- What the table says about the width of the fields. -/
theorem Family.format_bounds (f : Family) :
    f.format.topValues * 2 ^ f.format.timeBits ≤ 2 ^ 32 ∧ 0 < f.format.timeBits ∧
      f.format.timeBits ≤ 32 ∧ 0 < f.format.sampleBits ∧ f.format.sampleBits ≤ 16 ∧
      0 < f.format.highBits ∧ f.format.highBits ≤ 16 ∧ f.format.sizeBits ≤ 31 := by
  cases f <;> decide

section Event

variable {f : Family} {form : Word} (e : Event f form)

theorem timeWord_toNat : e.timeWord.toNat = e.tag + e.top * 2 ^ f.format.timeBits := by
  obtain ⟨htop, _⟩ := Family.format_bounds f
  have htag := e.tag_lt
  have hmul : (e.top + 1) * 2 ^ f.format.timeBits ≤ f.format.topValues * 2 ^ f.format.timeBits :=
    Nat.mul_le_mul_right _ e.top_lt
  rw [Nat.add_mul, Nat.one_mul] at hmul
  exact word_toNat (by omega)

theorem dataWord_pack : e.value + e.pileup.toNat * 2 ^ 15 + e.high * 2 ^ 16 +
    e.rest * 2 ^ (16 + f.format.highBits) =
      e.value + (e.pileup.toNat + (e.high + e.rest * 2 ^ f.format.highBits) * 2 ^ 1) * 2 ^ 15 := by
  rw [Nat.pow_add]
  ring

theorem upper_lt : e.high + e.rest * 2 ^ f.format.highBits < 2 ^ 16 := by
  obtain ⟨_, _, _, _, _, _, hhigh, _⟩ := Family.format_bounds f
  have h := pack_lt e.high_lt e.rest_lt
  rwa [Nat.add_sub_of_le hhigh] at h

theorem dataWord_toNat : e.dataWord.toNat =
    e.value + (e.pileup.toNat + (e.high + e.rest * 2 ^ f.format.highBits) * 2 ^ 1) * 2 ^ 15 := by
  have hp : e.pileup.toNat < 2 ^ 1 := Bool.toNat_lt _
  have h := pack_lt e.value_lt (pack_lt hp (upper_lt e))
  rw [Event.dataWord, dataWord_pack, word_toNat h]

theorem extrasWord_toNat : e.extrasWord.toNat = e.extrasLow + e.extrasHigh * 2 ^ 16 :=
  word_toNat (pack_lt e.extrasLow_lt e.extrasHigh_lt)

theorem halfBits_lt {w : Half × Half} (hw : w ∈ e.trace) {h : Half} (hh : h ∈ [w.1, w.2]) :
    Event.halfBits f h < 2 ^ 16 := by
  obtain ⟨_, _, _, _, hsample, _⟩ := Family.format_bounds f
  obtain ⟨hs, hp⟩ := e.half_lt w hw h hh
  have hlt := pack_lt hs hp
  rwa [Nat.add_sub_of_le hsample] at hlt

theorem traceWord_toNat {w : Half × Half} (hw : w ∈ e.trace) :
    (Event.traceWord f w).toNat = Event.halfBits f w.1 + Event.halfBits f w.2 * 2 ^ 16 :=
  word_toNat (pack_lt (halfBits_lt e hw (by simp)) (halfBits_lt e hw (by simp)))

variable {l : DataLayout} (hr : Reads f form l) (hrec : Recorded f form)
  (hsize : l.evtSize = eventLength f form)

theorem samples_of_word {w : Half × Half} (hw : w ∈ e.trace) :
    sample (Event.traceWord f w) 0 (f.format.sampleBits - 1) = BitVec.ofNat 16 w.1.sample ∧
      sample (Event.traceWord f w) 16 (f.format.sampleBits - 1 + 16) =
        BitVec.ofNat 16 w.2.sample := by
  obtain ⟨_, _, _, hpos, hle, _⟩ := Family.format_bounds f
  have hhalf : ∀ h ∈ [w.1, w.2], Event.halfBits f h % 2 ^ f.format.sampleBits = h.sample :=
    fun h hh => pack_mod (e.half_lt w hw h hh).1 _
  have hdvd : 2 ^ f.format.sampleBits ∣ 2 ^ 16 := Nat.pow_dvd_pow 2 hle
  have hwidth : f.format.sampleBits - 1 + 16 - 16 + 1 = f.format.sampleBits := by omega
  constructor
  · rw [sample, extractBits_low hpos (by omega), traceWord_toNat e hw, ← Nat.mod_mod_of_dvd _ hdvd,
      pack_mod (halfBits_lt e hw (by simp)), hhalf _ (by simp)]
  · rw [sample, extractBits_field _ (by omega), hwidth, fieldOf, traceWord_toNat e hw,
      pack_div (halfBits_lt e hw (by simp)), hhalf _ (by simp)]

include hr

theorem traceSamples_event : traceSamples l (e.trace.map (Event.traceWord f)) = e.samples := by
  unfold traceSamples Event.samples
  rw [hr.fmtSample, hr.dualTrace]
  dsimp only
  by_cases hd : dualOn form = true
  · rw [if_pos hd, if_pos hd, List.map_map]
    exact List.map_congr_left fun w hw => (samples_of_word e hw).1
  · rw [if_neg hd, if_neg hd, List.flatMap_map]
    apply List.flatMap_congr
    intro w hw
    rw [(samples_of_word e hw).1, ← (samples_of_word e hw).2]

theorem fmtTS_event : extractBits e.timeWord l.fmtTS = e.tag := by
  obtain ⟨_, hpos, hle, _⟩ := Family.format_bounds f
  rw [hr.fmtTS, extractBits_low hpos hle, timeWord_toNat, pack_mod e.tag_lt]

theorem channelOf_event (couple : ℕ) : channelOf l couple e.timeWord =
    if f.format.channelBit then e.top + couple * 2 else couple := by
  rw [channelOf, hr.hasChannelBit]
  have hbit : f.format.channelBit = true → e.timeWord.toNat >>> 31 &&& 1 = e.top := by
    intro hc
    have htime : f.format.timeBits = 31 ∧ f.format.topValues = 2 := by
      revert hc
      cases f <;> decide
    have htag := e.tag_lt
    have htop := e.top_lt
    rw [htime.1] at htag
    rw [htime.2] at htop
    rw [Nat.and_one_is_mod, Nat.shiftRight_eq_div_pow, timeWord_toNat, htime.1, pack_div htag,
      Nat.mod_eq_of_lt htop]
  by_cases hc : f.format.channelBit = true
  · rw [if_pos hc, if_pos hc, hbit hc]
  · rw [if_neg hc, if_neg hc]

include hrec

theorem timeWordOf_event : timeWordOf l e.words = e.timeWord := by
  have hts : l.hasTS = true := hr.hasTS.trans hrec.time
  rw [timeWordOf, if_pos hts]
  rfl

theorem traceWordsOf_event (hn : l.numSamples = samplesOf f form % 2 ^ 16) :
    traceWordsOf l e.words = e.trace.map (Event.traceWord f) := by
  have hts : l.hasTS = true := hr.hasTS.trans hrec.time
  rw [traceWordsOf, hr.hasTrace]
  by_cases ht : traceOn f form = true
  · have hlt : samplesOf f form < 2 ^ 16 := hrec.samples ht
    have hlen : (e.trace.map (Event.traceWord f)).length = l.numSamples / 2 := by
      rw [List.length_map, e.trace_length, traceWords, if_pos ht, hn, Nat.mod_eq_of_lt hlt]
    rw [if_pos ht, if_pos hts, slice, Event.words, List.drop_one, List.tail_cons, ← hlen,
      List.take_left]
  · have hnil : e.trace = [] := by
      apply List.length_eq_zero_iff.mp
      rw [e.trace_length, traceWords, if_neg ht]
    rw [if_neg ht, hnil]
    rfl

include hsize

theorem dataWordOf_event : dataWordOf (Family.unpacker f) l e.words = e.dataWord := by
  have hdata : (Family.unpacker f).hasData l = true := hr.hasData.trans hrec.data
  have hlen := e.words_length
  have hlast : e.words.getLast? = some e.dataWord := by
    rw [Event.words, ← List.cons_append, ← List.append_assoc, List.getLast?_concat]
  rw [dataWordOf, if_pos hdata, hsize, ← hlen, List.getD_eq_getElem?_getD,
    ← List.getLast?_eq_getElem?, hlast, Option.getD_some]

theorem extrasWordOf_event : extrasWordOf (Family.unpacker f) l e.words =
    if extrasOn f form then e.extrasWord else 0 := by
  have hdata : (Family.unpacker f).hasData l = true := hr.hasData.trans hrec.data
  rw [extrasWordOf, hr.hasExtras, if_pos hdata, hsize]
  by_cases hx : extrasOn f form = true
  · have hindex : eventLength f form - 1 - 1 =
        (e.timeWord :: e.trace.map (Event.traceWord f)).length := by
      rw [List.length_cons, List.length_map, e.trace_length, eventLength, if_pos hx]
      omega
    rw [if_pos hx, if_pos hx, hindex, Event.words, if_pos hx, ← List.cons_append,
      List.getD_eq_getElem?_getD, List.getElem?_append_right (Nat.le_refl _), Nat.sub_self]
    rfl
  · rw [if_neg hx, if_neg hx]

theorem extensionOf_event : extensionOf (Family.unpacker f) l e.words =
    { extendedTS := e.extension, extendedBits := Event.extensionBits f form
      fineTS := e.fine, fineBits := Event.fineBits f form
      satu := decide (f.format.firmware = .psd) && (Event.hasFlags f form && e.extrasLow.testBit 14)
      lost := decide (f.format.firmware = .psd) && (Event.hasFlags f form && e.extrasLow.testBit 12) } := by
  have hhigh : e.extrasWord.toNat >>> 16 = e.extrasHigh := by
    rw [Nat.shiftRight_eq_div_pow, extrasWord_toNat, pack_div e.extrasLow_lt]
  have hlow : ∀ n ≤ 16, e.extrasWord.toNat &&& (2 ^ n - 1) = e.extrasLow % 2 ^ n := by
    intro n hn
    rw [Nat.and_two_pow_sub_one_eq_mod, ← pack_mod e.extrasLow_lt e.extrasHigh, extrasWord_toNat,
      Nat.mod_mod_of_dvd _ (Nat.pow_dvd_pow 2 hn)]
  have hflag : ∀ i < 16, decide (e.extrasWord.toNat &&& 2 ^ i ≠ 0) = e.extrasLow.testBit i := by
    intro i hi
    rw [and_bit_ne_zero, extrasWord_toNat, pack_testBit e.extrasLow_lt hi]
  have hfine : e.extrasWord.toNat &&& 0x3FF = e.extrasLow % 2 ^ 10 := hlow 10 (by decide)
  have hshort : e.extrasWord.toNat &&& 0x7FFF = e.extrasLow % 2 ^ 15 := hlow 15 (by decide)
  have hover : decide (e.extrasWord.toNat &&& kPsdOverBit ≠ 0) = e.extrasLow.testBit 14 :=
    hflag 14 (by decide)
  have hlost : decide (e.extrasWord.toNat &&& kPsdLostBit ≠ 0) = e.extrasLow.testBit 12 :=
    hflag 12 (by decide)
  rw [extensionOf, extrasWordOf_event e hr hrec hsize]
  by_cases hx : extrasOn f form = true
  · rw [if_pos hx]
    cases f with
    | phaX724 => exact absurd hx (by simp [extrasOn, Family.format])
    | phaX730 =>
      show phaExtension l e.extrasWord = _
      by_cases hmode : modeOf .phaX730 form ≤ 2 <;>
        simp [phaExtension, hr.hasExtras, hr.extrasMode, hx, hhigh, hfine, hmode, Event.extension,
          Event.extensionBits, Event.fine, Event.fineBits, Event.hasFine, Family.format]
    | psdX730 =>
      show psdExtension l e.extrasWord = _
      have hconfig : l.extrasConfig = true := hr.extrasConfig
      by_cases hmode : modeOf .psdX730 form ≤ 2 <;>
        simp [psdExtension, hr.hasExtras, hr.extrasMode, hconfig, hx, hhigh, hfine, hmode, hover,
          hlost, Event.extension, Event.extensionBits, Event.fine, Event.fineBits, Event.hasFine,
          Event.hasFlags, Family.format]
    | psdX720 =>
      show psdExtension l e.extrasWord = _
      have hconfig : l.extrasConfig = false := hr.extrasConfig
      simp [psdExtension, hr.hasExtras, hconfig, hx, hshort, Event.extension,
        Event.extensionBits, Event.fine, Event.fineBits, Event.hasFine, Event.hasFlags,
        Family.format]
  · have hnone : ∀ w, (Family.unpacker f).extension l w = {} := by
      have hoff : ¬l.hasExtras = true := by rw [hr.hasExtras]; exact hx
      intro w
      cases f <;> exact if_neg hoff
    rw [hnone]
    simp [Event.extension, Event.extensionBits, Event.fine, Event.fineBits, Event.hasFine,
      Event.hasFlags, hx]

theorem rawTimestamp_event : rawTimestamp l (extensionOf (Family.unpacker f) l e.words)
    (extractBits e.timeWord l.fmtTS) = e.counter := by
  rw [fmtTS_event e hr, extensionOf_event e hr hrec hsize, rawTimestamp, hr.tsBits]
  dsimp only
  by_cases hx : Event.extensionBits f form = 0
  · rw [if_neg (not_not.mpr hx), Event.counter, Event.extension, if_pos hx, Nat.zero_mul,
      Nat.add_zero]
  · rw [if_pos hx, ← Nat.shiftLeft_add_eq_or_of_lt e.tag_lt, Nat.shiftLeft_eq, Event.counter,
      Nat.add_comm]

theorem widthOf_event : widthOf (Family.unpacker f) l e.words = Event.counterBits f form := by
  rw [widthOf, extensionOf_event e hr hrec hsize, hr.tsBits]
  rfl

theorem untimed_event {board couple : ℕ} (hboard : board < 2 ^ 5) (hcouple : couple < 8) :
    untimed (Family.unpacker f) board couple l e.words = e.meaning board couple := by
  have hchannel : (if f.format.channelBit then e.top + couple * 2 else couple) % 2 ^ 16 =
      if f.format.channelBit then e.top + couple * 2 else couple := by
    apply Nat.mod_eq_of_lt
    have htop := e.top_lt
    have hvalues : f.format.topValues ≤ 2 := by cases f <;> decide
    split <;> omega
  have hboard' : board % 2 ^ 16 = board := Nat.mod_eq_of_lt (by omega)
  have hvalue : e.dataWord.toNat &&& 0x7FFF = e.value := by
    rw [show 0x7FFF = 2 ^ 15 - 1 by decide, Nat.and_two_pow_sub_one_eq_mod, dataWord_toNat,
      pack_mod e.value_lt]
  have hp : e.pileup.toNat < 2 ^ 1 := Bool.toNat_lt _
  have hpileup : bitAt e.dataWord 15 = e.pileup := by
    have hbit : (e.pileup.toNat + (e.high + e.rest * 2 ^ f.format.highBits) * 2 ^ 1) % 2 =
        e.pileup.toNat := pack_mod hp _
    rw [bitAt_eq, dataWord_toNat, pack_div e.value_lt, hbit]
    cases e.pileup <;> rfl
  have hupper : e.dataWord.toNat / 2 ^ 16 = e.high + e.rest * 2 ^ f.format.highBits := by
    rw [show 2 ^ 16 = 2 ^ 15 * 2 ^ 1 by decide, ← Nat.div_div_eq_div_mul, dataWord_toNat,
      pack_div e.value_lt, pack_div hp]
  have hraw := rawTimestamp_event e hr hrec hsize
  have hx := extensionOf_event e hr hrec hsize
  rw [untimed, traceWordsOf_event e hr hrec hr.numSamples, traceSamples_event e hr,
    timeWordOf_event e hr hrec, dataWordOf_event e hr hrec hsize, channelOf_event e hr]
  cases hf : f.format.firmware with
  | pha =>
    have hu : Family.unpacker f = phaUnpacker := by rw [Family.unpacker, hf]
    have hflags : extractBits e.dataWord l.fmtExtras = e.high := by
      obtain ⟨_, _, _, _, _, hpos, hle, _⟩ := Family.format_bounds f
      have hwidth : 15 + f.format.highBits - 16 + 1 = f.format.highBits := by omega
      rw [hr.fmtExtras hf, extractBits_field _ (by omega), hwidth, fieldOf, hupper,
        pack_mod e.high_lt]
    have hsatu : decide (e.high &&& (kPhaSatuBit ||| kPhaDoubleSatBit) ≠ 0) =
        (e.high.testBit 4 || e.high.testBit 7) := two_bits_ne_zero e.high 4 7
    have hlost : decide (e.high &&& kPhaLostBit ≠ 0) = e.high.testBit 5 := and_bit_ne_zero e.high 5
    rw [hu] at hraw ⊢
    simp only [Event.meaning, hf, phaUnpacker, phaFields] at hraw ⊢
    rw [hraw, hflags, hsatu, hlost, hvalue, hpileup, hchannel, hboard']
  | psd =>
    have hu : Family.unpacker f = psdUnpacker := by rw [Family.unpacker, hf]
    have hbits : f.format.highBits = 16 := by
      revert hf
      cases f <;> decide
    have hqlong : (e.dataWord.toNat >>> 16) % 2 ^ 16 = e.high := by
      have hhigh := e.high_lt
      rw [hbits] at hhigh
      rw [Nat.shiftRight_eq_div_pow, hupper, hbits, pack_mod hhigh]
    rw [hu] at hraw hx ⊢
    simp only [Event.meaning, hf, psdUnpacker, psdFields] at hraw hx ⊢
    rw [hraw, hx, hqlong, hvalue, hpileup, hchannel, hboard']
    simp only [decide_true, Bool.true_and]

end Event

end EventRoundTrip
end CaenDaq
