import CaenDaq.Rates
import Mathlib.Algebra.BigOperators.Group.List.Basic
import Mathlib.Tactic.Ring

/-!
# Published rates telescope

Rate times duration is what a counter has gained since the last sample, so the ticks of a
run add up to what it has gained since the first one. A tick whose sampler throws leaves
its time and its counts to the next.
-/

namespace CaenDaq
namespace RatesTelescope

open Rates Transducer

/-- One board sampled twice: the counters do not decrease, and no channel disappears. -/
structure Steady (p b : BoardSample) : Prop extends Grows p b where
  distinct_after : Distinct b
  stays : ∀ c ∈ p.channels, ∃ d ∈ b.channels, d.board = c.board ∧ d.ch = c.ch

/-- The published rate of a counter of the board at a place, zero if it is not there. -/
def rateAt (published : List BoardRate) (i : ℕ) (board ch : UInt16) (k : Counter) : ℚ :=
  ((published[i]?.bind fun b => b.channels.find? fun c => c.board = board ∧ c.ch = ch).map
    k.ofRate).getD 0

def writeRateAt (published : List BoardRate) (i : ℕ) : ℚ :=
  (published[i]?.map BoardRate.writeRate).getD 0

def counterAt (sample : List BoardSample) (i : ℕ) (board ch : UInt16) (k : Counter) : ℚ :=
  (sample[i]?.map fun b => (k.ofCounts (counterOf b board ch) : ℚ)).getD 0

def bytesAt (sample : List BoardSample) (i : ℕ) : ℚ :=
  (sample[i]?.map fun b => (b.bytesWritten : ℚ)).getD 0

/-- Rate times duration of every published tick, summed. -/
def total (published : List (List BoardRate × ℚ)) (rate : List BoardRate → ℚ) : ℚ :=
  (published.map fun t => rate t.1 * t.2).sum

theorem ofRate_own (k : Counter) (dt : ℚ) (own : Counts) (c : ChannelSample) :
    k.ofRate (ownChannelRate dt own c) = ((k.ofCounts c.counts : ℚ) - k.ofCounts own) / dt := by
  cases k <;> rfl

theorem ownRate_mul {p b : BoardSample} (h : Steady p b) {dt : ℚ} (hdt : dt ≠ 0)
    (board ch : UInt16) (k : Counter) :
    (((ownRate dt p b).channels.find? fun c => c.board = board ∧ c.ch = ch).map k.ofRate).getD 0 *
        dt = (k.ofCounts (counterOf b board ch) : ℚ) - k.ofCounts (counterOf p board ch) := by
  have hfind : ((ownRate dt p b).channels.find? fun c => c.board = board ∧ c.ch = ch) =
      (b.channels.find? fun c => c.board = board ∧ c.ch = ch).map fun c =>
        ownChannelRate dt (counterOf p c.board c.ch) c := List.find?_map
  rw [hfind]
  cases hb : b.channels.find? fun c => c.board = board ∧ c.ch = ch with
  | some c =>
    have hsame : c.board = board ∧ c.ch = ch := by simpa using List.find?_some hb
    obtain ⟨rfl, rfl⟩ := hsame
    have hcounter : counterOf b c.board c.ch = c.counts := by
      rw [counterOf, hb]
      rfl
    rw [hcounter, Option.map_some, Option.map_some, Option.getD_some, ofRate_own,
      div_mul_cancel₀ _ hdt]
  | none =>
    -- a channel that is not there was not there before
    have hp : (p.channels.find? fun c => c.board = board ∧ c.ch = ch) = none := by
      rw [List.find?_eq_none] at hb ⊢
      intro c hc hsame
      obtain ⟨hboard, hch⟩ := of_decide_eq_true hsame
      obtain ⟨d, hd, hdboard, hdch⟩ := h.stays c hc
      exact hb d hd (decide_eq_true ⟨hdboard.trans hboard, hdch.trans hch⟩)
    rw [counterOf, counterOf, hb, hp]
    simp

theorem rates_mul {prev cur : List BoardSample} (hids : (prev.map BoardSample.boardRegId).Nodup)
    (h : List.Forall₂ Steady prev cur) {dt : ℚ} (hdt : dt ≠ 0) (i : ℕ) :
    (∀ board ch k, rateAt (rates prev cur dt) i board ch k * dt =
        counterAt cur i board ch k - counterAt prev i board ch k) ∧
      writeRateAt (rates prev cur dt) i * dt = bytesAt cur i - bytesAt prev i := by
  rw [rates_own hids (h.imp fun _ _ hb => hb.toGrows) dt]
  simp only [rateAt, writeRateAt, counterAt, bytesAt, List.getElem?_zipWith]
  obtain ⟨hlength, hboard⟩ := List.forall₂_iff_get.mp h
  by_cases hi : i < prev.length
  · have hsteady := hboard i hi (hlength ▸ hi)
    rw [List.getElem?_eq_getElem hi, List.getElem?_eq_getElem (hlength ▸ hi)]
    exact ⟨ownRate_mul hsteady hdt, div_mul_cancel₀ _ hdt⟩
  · rw [List.getElem?_eq_none (not_lt.mp hi), List.getElem?_eq_none (hlength ▸ not_lt.mp hi)]
    simp

theorem steady_ids {prev cur : List BoardSample} (h : List.Forall₂ Steady prev cur) :
    cur.map BoardSample.boardRegId = prev.map BoardSample.boardRegId := by
  induction h with
  | nil => rfl
  | cons hfirst _ ih => rw [List.map_cons, List.map_cons, hfirst.boardRegId, ih]

/-- From any baseline on, the published ticks add up to the gain since, and so do their
durations. -/
theorem run_telescopes (s : Baseline) (ticks : List Tick)
    (hids : (s.prev.map BoardSample.boardRegId).Nodup)
    (hsteady : (s.prev :: ticks.filterMap Tick.sample).IsChain (List.Forall₂ Steady))
    (htimes : (s.prevTime :: ticks.map Tick.now).Pairwise (· < ·)) (i : ℕ) :
    let r := run tick s ticks
    (∀ board ch k, total r.1 (rateAt · i board ch k) =
        counterAt r.2.prev i board ch k - counterAt s.prev i board ch k) ∧
      total r.1 (writeRateAt · i) = bytesAt r.2.prev i - bytesAt s.prev i ∧
      total r.1 (fun _ => 1) = r.2.prevTime - s.prevTime := by
  induction ticks generalizing s with
  | nil => simp [total]
  | cons t ticks ih =>
    rw [List.map_cons] at htimes
    have htime : s.prevTime < t.now := List.rel_of_pairwise_cons htimes List.mem_cons_self
    simp only [run_cons]
    cases ht : t.sample with
    | none =>
      have hthrows : tick s t = ([], s) := by rw [tick, ht]
      rw [List.filterMap_cons_none ht] at hsteady
      rw [hthrows]
      exact ih s hids hsteady (htimes.sublist ((List.sublist_cons_self _ _).cons_cons _))
    | some cur =>
      have hdt : elapsed s.prevTime t.now = t.now - s.prevTime := elapsed_of_lt htime
      have hpublishes : tick s t = ([(rates s.prev cur (t.now - s.prevTime), t.now - s.prevTime)],
          { prev := cur
            prevTime := t.now
            latest := rates s.prev cur (t.now - s.prevTime) }) := by
        rw [tick, ht, ← hdt]
      rw [List.filterMap_cons_some ht, List.isChain_cons_cons] at hsteady
      obtain ⟨hcur, hrest⟩ := hsteady
      have hmul := rates_mul hids hcur (sub_pos.mpr htime).ne' i
      rw [hpublishes]
      obtain ⟨hcounters, hbytes, hdurations⟩ := ih
        { prev := cur, prevTime := t.now, latest := rates s.prev cur (t.now - s.prevTime) }
        (by rw [steady_ids hcur]; exact hids) hrest htimes.of_cons
      have hcons : ∀ rate : List BoardRate → ℚ, ∀ x rest,
          total ([x] ++ rest) rate = rate x.1 * x.2 + total rest rate := by
        intro rate x rest
        rw [List.singleton_append, total, List.map_cons, List.sum_cons]
        rfl
      refine ⟨fun board ch k => ?_, ?_, ?_⟩
      · rw [hcons, hcounters, hmul.1]
        ring
      · rw [hcons, hbytes, hmul.2]
        ring
      · rw [hcons, hdurations]
        ring

theorem run_prev (s : Baseline) (ticks : List Tick) :
    (run tick s ticks).2.prev = (ticks.filterMap Tick.sample).getLast?.getD s.prev := by
  induction ticks generalizing s with
  | nil => rfl
  | cons t ticks ih =>
    rw [run_cons]
    show (run tick (tick s t).2 ticks).2.prev = _
    rw [ih]
    cases ht : t.sample with
    | none => rw [List.filterMap_cons_none ht, tick, ht]
    | some cur =>
      rw [List.filterMap_cons_some ht, tick, ht, List.getLast?_cons]
      rfl

/-- Over any run whose first sample was taken, with ticks that may fail in between, the rates
published for a counter add up to what it has gained from the first sample to the last one,
and their durations to the whole time. A tick whose sampler throws leaves everything as it
was. -/
theorem rates_telescope (first : List BoardSample) (start : ℚ) (ticks : List Tick)
    (hids : (first.map BoardSample.boardRegId).Nodup)
    (hsteady : (first :: ticks.filterMap Tick.sample).IsChain (List.Forall₂ Steady))
    (htimes : (start :: ticks.map Tick.now).Pairwise (· < ·)) :
    let r := run tick (begin (some first) start) ticks
    let last := (ticks.filterMap Tick.sample).getLast?.getD first
    (∀ i board ch k, total r.1 (rateAt · i board ch k) =
        counterAt last i board ch k - counterAt first i board ch k) ∧
      (∀ i, total r.1 (writeRateAt · i) = bytesAt last i - bytesAt first i) ∧
      total r.1 (fun _ => 1) = r.2.prevTime - start ∧
      ∀ s now, tick s ⟨now, none⟩ = ([], s) := by
  intro r last
  have hrun := run_telescopes (begin (some first) start) ticks hids hsteady htimes
  have hlast : r.2.prev = last := run_prev _ ticks
  rw [← hlast]
  exact ⟨fun i => (hrun i).1, fun i => (hrun i).2.1, (hrun 0).2.2, fun _ _ => rfl⟩

/-- A board with one channel, which shows up between the first sample and the second. -/
def growing (bytesWritten events : ℕ) : List BoardSample :=
  [{ boardRegId := 1, bytesWritten := bytesWritten,
     channels := if events = 0 then [] else [⟨1, 0, { events := events }⟩] }]

theorem growing_steady {bytes bytes' events events' : ℕ} (hbytes : bytes ≤ bytes')
    (hevents : events ≤ events') :
    List.Forall₂ Steady (growing bytes events) (growing bytes' events') := by
  refine List.Forall₂.cons ⟨⟨rfl, ?_, hbytes, ?_⟩, ?_, ?_⟩ List.Forall₂.nil
  · by_cases h : events = 0 <;> simp [Distinct, h]
  · by_cases h : events' = 0
    · simp [h]
    · rintro c hc k
      obtain rfl : c = ⟨1, 0, { events := events' }⟩ := by simpa [h] using hc
      by_cases h0 : events = 0 <;> cases k <;> simp [counterOf, Counter.ofCounts, h0, hevents]
  · by_cases h : events' = 0 <;> simp [Distinct, h]
  · by_cases h : events = 0
    · simp [h]
    · have h' : events' ≠ 0 := fun hzero => h (Nat.le_zero.mp (hzero ▸ hevents))
      simp [h, h']

/-- The second tick fails, so the third lasts two seconds. -/
theorem rates_telescope_growing :
    let ticks : List Tick := [⟨1, some (growing 10 5)⟩, ⟨2, none⟩, ⟨3, some (growing 40 9)⟩]
    let published := (run tick (begin (some (growing 0 0)) 0) ticks).1
    published.map (rateAt ·.1 0 1 0 .events) = [5, 2] ∧
      total published (rateAt · 0 1 0 .events) =
        counterAt (growing 40 9) 0 1 0 .events - counterAt (growing 0 0) 0 1 0 .events := by
  refine ⟨by decide +kernel, ?_⟩
  exact (rates_telescope (growing 0 0) 0 [⟨1, some (growing 10 5)⟩, ⟨2, none⟩,
    ⟨3, some (growing 40 9)⟩] (by decide)
    (List.IsChain.cons_cons (growing_steady (by decide) (by decide))
      (List.IsChain.cons_cons (growing_steady (by decide) (by decide)) (List.IsChain.singleton _)))
    (by decide +kernel)).1 0 1 0 .events

end RatesTelescope
end CaenDaq
