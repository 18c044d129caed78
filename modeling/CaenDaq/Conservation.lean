import CaenDaq.Counting
import CaenDaq.OnlineSpectra
import Mathlib.Algebra.BigOperators.Group.Finset.Piecewise
import Mathlib.Algebra.Order.BigOperators.Group.Finset

/-!
# The spectra conserve events

Every spectrum of a channel sums to the number of the channel's events that it counts,
whatever the order in which the channels were read out. The number of time intervals
depends on the latest time so far, and so on the whole history of the channel.
-/

namespace CaenDaq
namespace Conservation

open Checked Transducer AggregateDecoder DecoderRefinement BoardStream BoardIsolation
  OnlineSpectra Counting Channel
open AggregateStream hiding eventsOf

/-- What the decoder can put into an event. -/
structure InRange (e : DecodedEvent) : Prop where
  energy : e.energy < kEnergyBins
  qshort : e.qshort < kQShortBins
  qlong : e.qlong < kQLongBins
  board : e.board < 2 ^ 16
  channel : e.channel < 2 ^ 16

theorem untimed_inRange (bd : BoardDec) (board couple : ℕ) (layout : DataFrame.DataLayout)
    (words : List Word) : InRange (untimed (unpackerOf bd) board couple layout words) := by
  have hmask : ∀ n : ℕ, n &&& 0x7FFF < 32768 := fun n => Nat.and_lt_two_pow n (n := 15) (by decide)
  have hnone : 0 < kEnergyBins ∧ 0 < kQShortBins ∧ 0 < kQLongBins := by decide
  have hids : ∀ n : ℕ, n % 2 ^ 16 < 2 ^ 16 := fun n => Nat.mod_lt n (by decide)
  unfold untimed unpackerOf
  split
  · exact ⟨hmask _, hnone.2.1, hnone.2.2, hids _, hids _⟩
  · exact ⟨hnone.1, hmask _, hids _, hids _, hids _⟩

theorem eventsOf_inRange (o : OnlineBoard) (hblocks : ∀ block ∈ o.blocks, block.length < 2 ^ 32) :
    ∀ e ∈ eventsOf o, InRange e := by
  have hsegment := segmentStep_outputs (Q := InRange) (fun _ _ h => ⟨h.1, h.2, h.3, h.4, h.5⟩)
    untimed_inRange
  rw [eventsOf, decodeBlocks_ok _ hblocks]
  exact run_outputs InRange (fun d words _ =>
    run_outputs InRange (fun d seg _ => hsegment d seg) d) _

def charged (e : DecodedEvent) : Bool := e.qshort ≠ 0 || e.qlong ≠ 0

def hasTime (e : DecodedEvent) : Bool := 0 < e.timePs

/-- An event with a time, later than every earlier one, of which there is at least one. -/
def later (before : List DecodedEvent) (e : DecodedEvent) : Bool :=
  hasTime e && before.any hasTime && before.all fun d => !hasTime d || d.timePs < e.timePs

def lastTrace (kind : DecodedEvent → Bool) (events : List DecodedEvent) : List Sample :=
  ((events.filter fun e => !e.wave.isEmpty && kind e).getLast?.map DecodedEvent.wave).getD []

def good (e : DecodedEvent) : Bool := !e.pileup && !e.satu

structure Conserves (events : List DecodedEvent) (c : Channel) : Prop where
  energy : Counted kEnergyBins (events.countP (·.energy ≠ 0)) c.energy
  qshort : Counted kQShortBins (events.countP charged) c.qshort
  qlong : Counted kQLongBins (events.countP charged) c.qlong
  psd : Counted (kPsdXBins * kPsdYBins) (events.countP (·.qlong ≠ 0)) c.psd
  interval : Counted kIntervalBins (countAlong later [] events) c.interval
  counts : c.counts =
    { events := events.length
      pileup := events.countP DecodedEvent.pileup
      lost := events.countP DecodedEvent.lost
      satu := events.countP DecodedEvent.satu }
  lastWave : c.lastWave = lastTrace (fun _ => true) events
  lastWaveGood : c.lastWaveGood = lastTrace good events
  lastWavePileup : c.lastWavePileup = lastTrace DecodedEvent.pileup events
  lastWaveSatu : c.lastWaveSatu = lastTrace DecodedEvent.satu events

/-- The latest time among the events, negative if there is none. -/
structure Latest (events : List DecodedEvent) (t : ℤ) : Prop where
  bound : ∀ d ∈ events, hasTime d → d.timePs ≤ t
  attained : 0 ≤ t → ∃ d ∈ events, hasTime d ∧ d.timePs = t

theorem Latest.later_iff {events : List DecodedEvent} {t : ℤ} (h : Latest events t)
    (e : DecodedEvent) : later events e = true ↔ 0 < e.timePs ∧ 0 ≤ t ∧ t < e.timePs := by
  simp only [later, Bool.and_eq_true, List.any_eq_true, List.all_eq_true, Bool.or_eq_true,
    Bool.not_eq_true', decide_eq_true_eq, hasTime, decide_eq_false_iff_not]
  constructor
  · rintro ⟨⟨htime, d, hd, hdtime⟩, hall⟩
    have hpos : 0 ≤ t := (le_of_lt hdtime).trans (h.bound d hd (decide_eq_true hdtime))
    obtain ⟨d', hd', hd'time, rfl⟩ := h.attained hpos
    exact ⟨htime, hpos, (hall d' hd').resolve_left (not_not.mpr (of_decide_eq_true hd'time))⟩
  · rintro ⟨htime, hpos, hlt⟩
    obtain ⟨d, hd, hdtime, _⟩ := h.attained hpos
    refine ⟨⟨htime, d, hd, of_decide_eq_true hdtime⟩, fun d' hd' => ?_⟩
    by_cases hd'time : 0 < d'.timePs
    · exact Or.inr ((h.bound d' hd' (decide_eq_true hd'time)).trans_lt hlt)
    · exact Or.inl hd'time

theorem Latest.snoc {events : List DecodedEvent} {t : ℤ} (h : Latest events t)
    (e : DecodedEvent) :
    Latest (events ++ [e]) (if 0 < e.timePs then if t < e.timePs then e.timePs else t else t) := by
  have hold : ∀ {t'}, t ≤ t' → (hasTime e = true → e.timePs ≤ t') →
      ∀ d ∈ events ++ [e], hasTime d → d.timePs ≤ t' := by
    intro t' hle he d hd hdtime
    rcases List.mem_append.mp hd with hd | hd
    · exact (h.bound d hd hdtime).trans hle
    · rw [List.mem_singleton.mp hd] at hdtime ⊢
      exact he hdtime
  have hkept : 0 ≤ t → ∃ d ∈ events ++ [e], hasTime d ∧ d.timePs = t := fun hpos =>
    (h.attained hpos).imp fun d hd => ⟨List.mem_append_left _ hd.1, hd.2⟩
  by_cases htime : 0 < e.timePs
  · by_cases hlt : t < e.timePs
    · rw [if_pos htime, if_pos hlt]
      exact ⟨hold hlt.le fun _ => le_refl _, fun _ =>
        ⟨e, List.mem_append_right _ List.mem_cons_self, decide_eq_true htime, rfl⟩⟩
    · rw [if_pos htime, if_neg hlt]
      exact ⟨hold le_rfl fun _ => not_lt.mp hlt, hkept⟩
  · rw [if_neg htime]
    exact ⟨hold le_rfl fun hno => absurd (of_decide_eq_true hno) htime, hkept⟩

section Fill

variable (binning : Binning) (e : DecodedEvent) (c : Channel)

theorem fillEnergy_with : fillEnergy e c = { c with energy := (fillEnergy e c).energy } := by
  unfold fillEnergy
  split <;> rfl

theorem fillCharge_with (energy : List Word) :
    fillCharge binning e { c with energy := energy } =
      { c with
        energy := energy
        qshort := (fillCharge binning e c).qshort
        qlong := (fillCharge binning e c).qlong
        psd := (fillCharge binning e c).psd } := by
  unfold fillCharge
  split <;> rfl

theorem fillTime_with (energy qshort qlong psd : List Word) :
    fillTime binning e { c with energy := energy, qshort := qshort, qlong := qlong, psd := psd } =
      { c with
        energy := energy, qshort := qshort, qlong := qlong, psd := psd
        interval := (fillTime binning e c).interval
        lastTimePs := (fillTime binning e c).lastTimePs } := by
  unfold fillTime
  split <;> rfl

theorem fillWave_with (energy qshort qlong psd interval : List Word) (lastTimePs : ℤ) :
    fillWave e { c with
        energy := energy, qshort := qshort, qlong := qlong, psd := psd
        interval := interval, lastTimePs := lastTimePs } =
      { fillWave e c with
        energy := energy, qshort := qshort, qlong := qlong, psd := psd
        interval := interval, lastTimePs := lastTimePs } := by
  unfold fillWave
  split <;> rfl

/-- Each part of a fill has items of the record of its own, and what it does with them does
not depend on the other parts. -/
theorem fill_eq : fill binning c e =
    { energy := (fillEnergy e c).energy
      qshort := (fillCharge binning e c).qshort
      qlong := (fillCharge binning e c).qlong
      psd := (fillCharge binning e c).psd
      interval := (fillTime binning e c).interval
      lastTimePs := (fillTime binning e c).lastTimePs
      lastWave := (fillWave e c).lastWave
      lastWaveGood := (fillWave e c).lastWaveGood
      lastWavePileup := (fillWave e c).lastWavePileup
      lastWaveSatu := (fillWave e c).lastWaveSatu
      counts := (fillCounts e c).counts } := by
  rw [fill, fillEnergy_with, fillCharge_with, fillTime_with, fillWave_with, fillCounts,
    fillWave_counts]
  rfl

variable {binning e c} {n : ℕ}

theorem fillEnergy_counted (h : Counted kEnergyBins n c.energy) (he : InRange e)
    (hroom : n + 1 < 2 ^ 32) :
    Counted kEnergyBins (n + if e.energy ≠ 0 then 1 else 0) (fillEnergy e c).energy := by
  unfold fillEnergy
  by_cases henergy : e.energy ≠ 0
  · rw [if_pos henergy, if_pos henergy]
    simp only [if_pos he.energy]
    exact h.up he.energy hroom
  · rw [if_neg henergy, if_neg henergy]
    exact h

theorem fillCharge_qshort (h : Counted kQShortBins n c.qshort) (he : InRange e)
    (hroom : n + 1 < 2 ^ 32) :
    Counted kQShortBins (n + if charged e then 1 else 0) (fillCharge binning e c).qshort := by
  unfold fillCharge
  by_cases hcharge : e.qshort ≠ 0 ∨ e.qlong ≠ 0
  · rw [if_pos (by simpa [charged] using hcharge), if_pos hcharge]
    simp only [if_pos he.qshort]
    exact h.up he.qshort hroom
  · rw [if_neg (by simpa [charged] using hcharge), if_neg hcharge]
    exact h

theorem fillCharge_qlong (h : Counted kQLongBins n c.qlong) (he : InRange e)
    (hroom : n + 1 < 2 ^ 32) :
    Counted kQLongBins (n + if charged e then 1 else 0) (fillCharge binning e c).qlong := by
  unfold fillCharge
  by_cases hcharge : e.qshort ≠ 0 ∨ e.qlong ≠ 0
  · rw [if_pos (by simpa [charged] using hcharge), if_pos hcharge]
    exact h.up he.qlong hroom
  · rw [if_neg (by simpa [charged] using hcharge), if_neg hcharge]
    exact h

theorem psdBin_lt (binning : Binning) (e : DecodedEvent) :
    psdBin binning e < kPsdXBins * kPsdYBins := by
  have hx : min (e.qlong * kPsdXBins / kQLongMax) (kPsdXBins - 1) ≤ 2047 := Nat.min_le_right _ _
  have hy : min (binning.ratio e.qshort e.qlong) (kPsdYBins - 1) ≤ 255 := Nat.min_le_right _ _
  calc psdBin binning e ≤ 2047 * kPsdYBins + 255 := Nat.add_le_add (Nat.mul_le_mul_right _ hx) hy
    _ < kPsdXBins * kPsdYBins := by decide

theorem fillCharge_psd (h : Counted (kPsdXBins * kPsdYBins) n c.psd) (hroom : n + 1 < 2 ^ 32) :
    Counted (kPsdXBins * kPsdYBins) (n + if e.qlong ≠ 0 then 1 else 0)
      (fillCharge binning e c).psd := by
  unfold fillCharge
  by_cases hlong : e.qlong ≠ 0
  · rw [if_pos hlong, if_pos (Or.inr hlong)]
    simp only [if_pos (Nat.pos_of_ne_zero hlong)]
    exact h.up (psdBin_lt binning e) hroom
  · rw [if_neg hlong]
    by_cases hcharge : e.qshort ≠ 0 ∨ e.qlong ≠ 0
    · rw [if_pos hcharge]
      simp only [if_neg fun hpos : 0 < e.qlong => hlong hpos.ne']
      exact h
    · rw [if_neg hcharge]
      exact h

theorem intervalBin_lt (binning : Binning) (dt : ℤ) : intervalBin binning dt < kIntervalBins := by
  have hle : min (max (binning.decade dt) 0) ((kIntervalBins : ℤ) - 1) ≤ 999 := min_le_right _ _
  calc intervalBin binning dt ≤ 999 := Int.toNat_le.mpr hle
    _ < kIntervalBins := by decide

theorem fillTime_counted {before : List DecodedEvent} (hlatest : Latest before c.lastTimePs)
    (h : Counted kIntervalBins n c.interval) (hroom : n + 1 < 2 ^ 32) :
    Counted kIntervalBins (n + if later before e then 1 else 0)
      (fillTime binning e c).interval := by
  unfold fillTime
  by_cases htime : 0 < e.timePs
  · rw [if_pos htime]
    by_cases hlater : 0 ≤ c.lastTimePs ∧ c.lastTimePs < e.timePs
    · simp only [if_pos hlater]
      rw [if_pos ((hlatest.later_iff e).mpr ⟨htime, hlater⟩)]
      exact h.up (intervalBin_lt binning _) hroom
    · simp only [if_neg hlater]
      rw [if_neg fun hyes => hlater ((hlatest.later_iff e).mp hyes).2]
      exact h
  · rw [if_neg htime, if_neg fun hyes => htime ((hlatest.later_iff e).mp hyes).1]
    exact h

theorem fillTime_latest {before : List DecodedEvent} (hlatest : Latest before c.lastTimePs) :
    Latest (before ++ [e]) (fillTime binning e c).lastTimePs := by
  have hnext := hlatest.snoc e
  unfold fillTime
  split
  · rename_i htime
    rwa [if_pos htime] at hnext
  · rename_i htime
    rwa [if_neg htime] at hnext

theorem lastTrace_snoc (kind : DecodedEvent → Bool) (before : List DecodedEvent)
    (e : DecodedEvent) : lastTrace kind (before ++ [e]) =
      if !e.wave.isEmpty && kind e then e.wave else lastTrace kind before := by
  rw [lastTrace, List.filter_append, List.filter_singleton]
  by_cases hkind : (!e.wave.isEmpty && kind e) = true
  · rw [if_pos hkind, hkind, cond_true, List.getLast?_concat]
    rfl
  · rw [if_neg hkind, eq_false_of_ne_true hkind, cond_false, List.append_nil]
    rfl

theorem trace_fill (kind : DecodedEvent → Bool) {before : List DecodedEvent} {trace : List Sample}
    (h : trace = lastTrace kind before) :
    (if e.wave.isEmpty then trace else if kind e then e.wave else trace) =
      lastTrace kind (before ++ [e]) := by
  rw [lastTrace_snoc, ← h]
  cases e.wave.isEmpty with
  | true => rfl
  | false => rfl

theorem Conserves.fill {before : List DecodedEvent} (h : Conserves before c)
    (hlatest : Latest before c.lastTimePs) (he : InRange e)
    (hfew : (before ++ [e]).length < 2 ^ 32) :
    Conserves (before ++ [e]) (fill binning c e) := by
  have hsnoc : ∀ p : DecodedEvent → Bool,
      (before ++ [e]).countP p = before.countP p + if p e then 1 else 0 := by
    intro p
    rw [List.countP_append, List.countP_singleton]
  have hroom : ∀ n ≤ before.length, n + 1 < 2 ^ 32 := by
    intro n hn
    rw [List.length_append, List.length_singleton] at hfew
    exact lt_of_le_of_lt (Nat.succ_le_succ hn) hfew
  rw [fill_eq]
  refine ⟨?_, ?_, ?_, ?_, ?_, ?_, ?_, ?_, ?_, ?_⟩
  · rw [hsnoc]
    simpa using fillEnergy_counted h.energy he (hroom _ List.countP_le_length)
  · rw [hsnoc]
    exact fillCharge_qshort h.qshort he (hroom _ List.countP_le_length)
  · rw [hsnoc]
    exact fillCharge_qlong h.qlong he (hroom _ List.countP_le_length)
  · rw [hsnoc]
    simpa using fillCharge_psd h.psd (hroom _ List.countP_le_length)
  · rw [countAlong_snoc]
    exact fillTime_counted hlatest h.interval (hroom _ (countAlong_le _ _ _))
  · simp only [fillCounts, h.counts, hsnoc, List.length_append, List.length_singleton]
    cases e.pileup <;> cases e.lost <;> cases e.satu <;> rfl
  · simp only [fillWave, apply_ite Channel.lastWave]
    exact trace_fill _ h.lastWave
  · simp only [fillWave, apply_ite Channel.lastWaveGood]
    exact trace_fill _ h.lastWaveGood
  · simp only [fillWave, apply_ite Channel.lastWavePileup]
    exact trace_fill _ h.lastWavePileup
  · simp only [fillWave, apply_ite Channel.lastWaveSatu]
    exact trace_fill _ h.lastWaveSatu

theorem Conserves.inside {before : List DecodedEvent} (h : Conserves before c) (he : InRange e) :
    ∀ a ∈ accesses binning c e, a.1 < a.2.length := by
  intro a ha
  simp only [accesses, List.mem_append, List.mem_ite_nil_right, List.mem_cons, List.not_mem_nil,
    or_false] at ha
  rcases ha with (⟨_, rfl⟩ | ⟨_, ⟨_, rfl⟩ | rfl | ⟨_, rfl⟩⟩) | ⟨_, rfl⟩
  · exact lt_of_lt_of_eq he.energy h.energy.allocated_length.symm
  · exact lt_of_lt_of_eq he.qshort h.qshort.allocated_length.symm
  · exact lt_of_lt_of_eq he.qlong h.qlong.allocated_length.symm
  · exact lt_of_lt_of_eq (psdBin_lt binning e) h.psd.allocated_length.symm
  · exact lt_of_lt_of_eq (intervalBin_lt binning _) h.interval.allocated_length.symm

end Fill

variable (binning : Binning)

theorem accumulate_conserves {events : List DecodedEvent} (hrange : ∀ e ∈ events, InRange e)
    (hfew : events.length < 2 ^ 32) :
    Conserves events (accumulate binning events) ∧
      Latest events (accumulate binning events).lastTimePs := by
  induction events using List.reverseRecOn with
  | nil =>
    have hnever : ¬(0 : ℤ) ≤ -1 := by decide
    refine ⟨?_, fun _ hno => absurd hno List.not_mem_nil, fun hno => absurd hno hnever⟩
    exact ⟨counted_nil _, counted_nil _, counted_nil _, counted_nil _, counted_nil _, rfl, rfl, rfl,
      rfl, rfl⟩
  | append_singleton before e ih =>
    have hless : before.length < 2 ^ 32 := by
      rw [List.length_append] at hfew
      exact lt_of_le_of_lt (Nat.le_add_right _ _) hfew
    obtain ⟨hconserves, hlatest⟩ := ih (fun d hd => hrange d (List.mem_append_left _ hd)) hless
    have he : InRange e := hrange e (List.mem_append_right _ List.mem_cons_self)
    rw [accumulate, List.foldl_append]
    refine ⟨hconserves.fill hlatest he hfew, ?_⟩
    show Latest _ (fill binning (accumulate binning before) e).lastTimePs
    rw [fill_eq]
    exact fillTime_latest hlatest

def ofChannel (board ch : ℕ) (events : List DecodedEvent) : List DecodedEvent :=
  events.filter fun e => e.board = board ∧ e.channel = ch

theorem filter_key {events : List DecodedEvent} (hrange : ∀ e ∈ events, InRange e) {board ch : ℕ}
    (hboard : board < 2 ^ 16) (hch : ch < 2 ^ 16) :
    (events.filter fun e => HistogramStore.keyOf e = HistogramStore.key board ch) =
      ofChannel board ch events := by
  apply List.filter_congr
  intro e he
  have hrange := hrange e he
  apply decide_eq_decide.mpr
  constructor
  · intro hkey
    have hids := HistogramStore.key_injective hkey
    rwa [Nat.mod_eq_of_lt hboard, Nat.mod_eq_of_lt hch, Nat.mod_eq_of_lt hrange.board,
      Nat.mod_eq_of_lt hrange.channel] at hids
  · rintro ⟨rfl, rfl⟩
    rfl

/-- The record of a key is that of its events, also if there are none. -/
theorem record_eq (events : List DecodedEvent) (k : ℕ) :
    ((events.foldl (HistogramStore.fill binning) {}).ch k).getD {} =
      accumulate binning (events.filter fun e => HistogramStore.keyOf e = k) := by
  rw [HistogramStore.foldl_fill]
  by_cases hnone : events.filter (fun e => HistogramStore.keyOf e = k) = []
  · rw [if_pos hnone, hnone]
    rfl
  · rw [if_neg hnone]
    rfl

open Finset in
theorem sum_ofChannel {events : List DecodedEvent} (hrange : ∀ e ∈ events, InRange e) :
    ∑ board ∈ range (2 ^ 16), ∑ ch ∈ range (2 ^ 16), (ofChannel board ch events).length =
      events.length := by
  induction events with
  | nil => simp [ofChannel]
  | cons e events ih =>
    have he := hrange e List.mem_cons_self
    have hone : ∑ board ∈ range (2 ^ 16), ∑ ch ∈ range (2 ^ 16),
        (if e.board = board ∧ e.channel = ch then 1 else 0) = 1 := by
      simp only [ite_and, sum_ite_eq, mem_range, he.channel, if_true, sum_ite_irrel, sum_const_zero,
        he.board]
    have hcons : ∀ board ch, (ofChannel board ch (e :: events)).length =
        (if e.board = board ∧ e.channel = ch then 1 else 0) + (ofChannel board ch events).length := by
      intro board ch
      rw [ofChannel, List.filter_cons]
      by_cases hids : e.board = board ∧ e.channel = ch
      · rw [if_pos (decide_eq_true hids), if_pos hids, List.length_cons, Nat.add_comm]
        rfl
      · rw [if_neg (by simpa using hids), if_neg hids, Nat.zero_add]
        rfl
    simp only [hcons, sum_add_distrib]
    rw [hone, ih fun d hd => hrange d (List.mem_cons_of_mem _ hd), List.length_cons, Nat.add_comm]

/-- The decode stage counts each event once, in the store and in its own counter; every
spectrum sums to what it counts; no bin outside its array is used; and a fill leaves every
other channel alone. -/
theorem histograms_conserve (o : OnlineBoard)
    (hblocks : ∀ block ∈ o.blocks, block.length < 2 ^ 32)
    (hfew : ∀ board ch, (ofChannel board ch (eventsOf o)).length < 2 ^ 32) :
    (∃ s, DecodeStage.loop binning (.ofInfo o.info) o.blocks = .ok s ∧
      s.events = ∑ board ∈ Finset.range (2 ^ 16), ∑ ch ∈ Finset.range (2 ^ 16),
        s.store.events board ch ∧
      ∀ board < 2 ^ 16, ∀ ch < 2 ^ 16, Conserves (ofChannel board ch (eventsOf o))
        ((s.store.ch (HistogramStore.key board ch)).getD {})) ∧
    (∀ before e after, eventsOf o = before ++ e :: after →
      ∀ a ∈ accesses binning (((before.foldl (HistogramStore.fill binning) {}).ch
        (HistogramStore.keyOf e)).getD {}) e, a.1 < a.2.length) ∧
    ∀ store e board ch, (board % 2 ^ 16, ch % 2 ^ 16) ≠ (e.board % 2 ^ 16, e.channel % 2 ^ 16) →
      (HistogramStore.fill binning store e).ch (HistogramStore.key board ch) =
        store.ch (HistogramStore.key board ch) := by
  have hrange := eventsOf_inRange o hblocks
  refine ⟨?_, ?_, ?_⟩
  · obtain ⟨r, hr, hloop⟩ := DecodeStage.loop_ok binning (.ofInfo o.info) hblocks
    have hall := decodeBlocks_ok (registerBoardInfo {} o.info) hblocks
    have hsame := Except.ok.inj (hr.symm.trans hall)
    have hevents : eventsOf o = r.events := by
      rw [eventsOf, hall, hsame]
    have hcount : r.count = r.events.length := by
      rw [hsame]
      rfl
    rw [hevents] at hrange hfew ⊢
    refine ⟨_, hloop, ?_, fun board hboard ch hch => ?_⟩
    · have hchannel : ∀ board ∈ Finset.range (2 ^ 16), ∀ ch ∈ Finset.range (2 ^ 16),
          (r.events.foldl (HistogramStore.fill binning) {}).events board ch =
            (ofChannel board ch r.events).length := by
        intro board hboard ch hch
        have hshown := HistogramStore.snapshot_foldl (fun c => c.counts.events) binning r.events
          board ch
        rw [accumulate_events, filter_key hrange (Finset.mem_range.mp hboard)
          (Finset.mem_range.mp hch)] at hshown
        exact hshown
      show 0 + r.count = _
      rw [Nat.zero_add, hcount, ← sum_ofChannel hrange]
      exact Finset.sum_congr rfl fun board hboard => Finset.sum_congr rfl fun ch hch =>
        (hchannel board hboard ch hch).symm
    · have hrecord := record_eq binning r.events (HistogramStore.key board ch)
      rw [filter_key hrange hboard hch] at hrecord
      show Conserves _ (((r.events.foldl (HistogramStore.fill binning) {}).ch _).getD {})
      rw [hrecord]
      exact (accumulate_conserves binning (fun e he => hrange e (List.mem_of_mem_filter he))
        (hfew board ch)).1
  · intro before e after hsplit
    have hbefore : ∀ d ∈ before, InRange d := fun d hd =>
      hrange d (hsplit ▸ List.mem_append_left _ hd)
    have he : InRange e := hrange e (hsplit ▸ List.mem_append_right _ List.mem_cons_self)
    have hless : (ofChannel e.board e.channel before).length < 2 ^ 32 := by
      refine lt_of_le_of_lt ?_ (hfew e.board e.channel)
      rw [hsplit, ofChannel, ofChannel, List.filter_append, List.length_append]
      exact Nat.le_add_right _ _
    have hrecord := record_eq binning before (HistogramStore.keyOf e)
    rw [HistogramStore.keyOf, filter_key hbefore he.board he.channel] at hrecord
    rw [HistogramStore.keyOf, hrecord]
    exact (accumulate_conserves binning (fun d hd => hbefore d (List.mem_of_mem_filter hd))
      hless).1.inside he
  · exact fun store e board ch hne =>
      HistogramStore.fill_other binning store e (HistogramStore.key_ne hne)

/-- An aggregate of a V1730 board with two events on channel 1 among three on channel 0, the
second of which comes with a time before the first. -/
def shuffled : BoardAggregate where
  words := [0xA0000010#32, 0x08000001#32, 0, 0, 12, 0x60000000#32, 2000, 0x000A0123#32,
    0x800003E8#32, 0x000A0200#32, 500, 0x000A0050#32, 3000, 0x000A0060#32, 0x800009C4#32,
    0x000A0150#32]
  long := Nat.le_add_left 4 12
  sync := by
    show isSync 0xA0000010#32 = true
    decide
  announced := by
    show aggLength 0xA0000010#32 = 16
    decide

def boardTwo : OnlineBoard :=
  { info := { boardRegId := 1, dppType := .pha, modelName := "V1730", nsPerSample := 2 }
    blocks := [payload [shuffled], payload [hit 1]] }

theorem histograms_conserve_two :
    ((eventsOf boardTwo).map fun e => (e.channel, e.timestamp)) =
      [(0, 2000), (1, 1000), (0, 500), (0, 3000), (1, 2500), (0, 1000)] ∧
    ∃ s, DecodeStage.loop flatBinning (.ofInfo boardTwo.info) boardTwo.blocks = .ok s ∧
      s.events = ∑ board ∈ Finset.range (2 ^ 16), ∑ ch ∈ Finset.range (2 ^ 16),
        s.store.events board ch ∧
      ∀ board < 2 ^ 16, ∀ ch < 2 ^ 16, Conserves (ofChannel board ch (eventsOf boardTwo))
        ((s.store.ch (HistogramStore.key board ch)).getD {}) := by
  have hevents : ((eventsOf boardTwo).map fun e => (e.channel, e.timestamp)) =
      [(0, 2000), (1, 1000), (0, 500), (0, 3000), (1, 2500), (0, 1000)] := by decide +kernel
  have hsix : (eventsOf boardTwo).length = 6 := by
    rw [← List.length_map (f := fun e : DecodedEvent => (e.channel, e.timestamp)), hevents]
    rfl
  have hfew : ∀ board ch, (ofChannel board ch (eventsOf boardTwo)).length < 2 ^ 32 :=
    fun board ch => lt_of_le_of_lt (List.length_filter_le _ _) (by rw [hsix]; decide)
  exact ⟨hevents, (histograms_conserve flatBinning boardTwo (by decide) hfew).1⟩

end Conservation
end CaenDaq
