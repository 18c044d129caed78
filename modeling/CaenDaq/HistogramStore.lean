import CaenDaq.BoardInfo
import CaenDaq.Counting
import CaenDaq.Transducer

/-!
# Online spectra

`HistogramStore`: one record for each pair of a board id and a channel, into which the
decoded events are filled, and the snapshots that are taken of it. Two bin numbers are
computed in floating point; they are left open here.
-/

namespace CaenDaq

structure Counts where
  events : ℕ := 0
  pileup : ℕ := 0
  lost : ℕ := 0
  satu : ℕ := 0
  deriving DecidableEq, Repr

structure Channel where
  energy : List Word := []
  qshort : List Word := []
  qlong : List Word := []
  psd : List Word := []
  interval : List Word := []
  lastTimePs : ℤ := -1
  lastWave : List Sample := []
  lastWaveGood : List Sample := []
  lastWavePileup : List Sample := []
  lastWaveSatu : List Sample := []
  counts : Counts := {}
  deriving DecidableEq, Repr

/-- The bin numbers that come out of floating point: of the ratio 1 - qshort/qlong, and
of the decimal logarithm of a time difference in ps. -/
structure Binning where
  ratio : ℕ → ℕ → ℕ
  decade : ℤ → ℤ

namespace Channel

open Counting (allocated increment)

def kEnergyBins : ℕ := 32768
def kQShortBins : ℕ := 32768
def kQLongBins : ℕ := 65536
def kPsdXBins : ℕ := 2048
def kPsdYBins : ℕ := 256
def kQLongMax : ℕ := 65536
def kIntervalBinsPerDecade : ℕ := 100
def kIntervalDecades : ℕ := 10
def kIntervalBins : ℕ := kIntervalBinsPerDecade * kIntervalDecades

variable (binning : Binning)

def fillEnergy (e : DecodedEvent) (c : Channel) : Channel :=
  if e.energy ≠ 0 then
    let energy := allocated kEnergyBins c.energy
    { c with energy := if e.energy < kEnergyBins then increment e.energy energy else energy }
  else c

def psdBin (e : DecodedEvent) : ℕ :=
  let xb := min (e.qlong * kPsdXBins / kQLongMax) (kPsdXBins - 1)
  let yb := min (binning.ratio e.qshort e.qlong) (kPsdYBins - 1)
  xb * kPsdYBins + yb

def fillCharge (e : DecodedEvent) (c : Channel) : Channel :=
  if e.qshort ≠ 0 ∨ e.qlong ≠ 0 then
    let qshort := allocated kQShortBins c.qshort
    let qlong := allocated kQLongBins c.qlong
    { c with
      qshort := if e.qshort < kQShortBins then increment e.qshort qshort else qshort
      qlong := increment e.qlong qlong
      psd := if 0 < e.qlong then
          increment (psdBin binning e) (allocated (kPsdXBins * kPsdYBins) c.psd)
        else c.psd }
  else c

def intervalBin (dt : ℤ) : ℕ := (min (max (binning.decade dt) 0) (kIntervalBins - 1 : ℤ)).toNat

def fillTime (e : DecodedEvent) (c : Channel) : Channel :=
  if 0 < e.timePs then
    { c with
      interval := if 0 ≤ c.lastTimePs ∧ c.lastTimePs < e.timePs then
          increment (intervalBin binning (e.timePs - c.lastTimePs))
            (allocated kIntervalBins c.interval)
        else c.interval
      lastTimePs := if c.lastTimePs < e.timePs then e.timePs else c.lastTimePs }
  else c

def fillWave (e : DecodedEvent) (c : Channel) : Channel :=
  if e.wave.isEmpty then c
  else
    { c with
      lastWave := e.wave
      lastWavePileup := if e.pileup then e.wave else c.lastWavePileup
      lastWaveSatu := if e.satu then e.wave else c.lastWaveSatu
      lastWaveGood := if !e.pileup && !e.satu then e.wave else c.lastWaveGood }

def fillCounts (e : DecodedEvent) (c : Channel) : Channel :=
  { c with counts :=
    { events := c.counts.events + 1
      pileup := if e.pileup then c.counts.pileup + 1 else c.counts.pileup
      lost := if e.lost then c.counts.lost + 1 else c.counts.lost
      satu := if e.satu then c.counts.satu + 1 else c.counts.satu } }

def fill (c : Channel) (e : DecodedEvent) : Channel :=
  fillCounts e (fillWave e (fillTime binning e (fillCharge binning e (fillEnergy e c))))

/-- The bins that `fill` counts up, each with the spectrum it is a bin of. -/
def accesses (c : Channel) (e : DecodedEvent) : List (ℕ × List Word) :=
  (if e.energy ≠ 0 ∧ e.energy < kEnergyBins then [(e.energy, allocated kEnergyBins c.energy)]
    else []) ++
  (if e.qshort ≠ 0 ∨ e.qlong ≠ 0 then
    (if e.qshort < kQShortBins then [(e.qshort, allocated kQShortBins c.qshort)] else []) ++
    (e.qlong, allocated kQLongBins c.qlong) ::
    (if 0 < e.qlong then [(psdBin binning e, allocated (kPsdXBins * kPsdYBins) c.psd)] else [])
    else []) ++
  (if 0 < e.timePs ∧ 0 ≤ c.lastTimePs ∧ c.lastTimePs < e.timePs then
    [(intervalBin binning (e.timePs - c.lastTimePs), allocated kIntervalBins c.interval)]
    else [])

def accumulate (events : List DecodedEvent) : Channel := events.foldl (fill binning) {}

theorem fillEnergy_counts (e : DecodedEvent) (c : Channel) : (fillEnergy e c).counts = c.counts := by
  unfold fillEnergy
  split <;> rfl

theorem fillCharge_counts (e : DecodedEvent) (c : Channel) :
    (fillCharge binning e c).counts = c.counts := by
  unfold fillCharge
  split <;> rfl

theorem fillTime_counts (e : DecodedEvent) (c : Channel) :
    (fillTime binning e c).counts = c.counts := by
  unfold fillTime
  split <;> rfl

theorem fillWave_counts (e : DecodedEvent) (c : Channel) : (fillWave e c).counts = c.counts := by
  unfold fillWave
  split <;> rfl

theorem fill_events (c : Channel) (e : DecodedEvent) :
    (fill binning c e).counts.events = c.counts.events + 1 := by
  rw [fill, fillCounts, fillWave_counts, fillTime_counts, fillCharge_counts, fillEnergy_counts]

theorem accumulate_events (events : List DecodedEvent) :
    (accumulate binning events).counts.events = events.length := by
  have hfold : ∀ c : Channel,
      (events.foldl (fill binning) c).counts.events = c.counts.events + events.length := by
    induction events with
    | nil => exact fun c => rfl
    | cons e events ih =>
      intro c
      rw [List.foldl_cons, ih, fill_events, List.length_cons]
      omega
  exact (hfold {}).trans (Nat.zero_add _)

end Channel

structure HistogramStore where
  ch : ℕ → Option Channel := fun _ => none

namespace HistogramStore

def key (board ch : ℕ) : ℕ := ((board % 2 ^ 16) <<< 16) ||| (ch % 2 ^ 16)

def keyOf (e : DecodedEvent) : ℕ := key e.board e.channel

def fill (binning : Binning) (s : HistogramStore) (e : DecodedEvent) : HistogramStore :=
  { ch := Function.update s.ch (keyOf e) (some (((s.ch (keyOf e)).getD {}).fill binning e)) }

/-- A snapshot of one item of a channel, with its value for a channel that was not seen. -/
def snapshot {β : Type} (item : Channel → β) (absent : β) (s : HistogramStore) (board ch : ℕ) : β :=
  match s.ch (key board ch) with
  | some c => item c
  | none => absent

def energy := snapshot Channel.energy []
def qshort := snapshot Channel.qshort []
def qlong := snapshot Channel.qlong []
def psd := snapshot Channel.psd []
def interval := snapshot Channel.interval []
def waveform := snapshot Channel.lastWave []
def events := snapshot (fun c => c.counts.events) 0

theorem key_injective {board ch board' ch' : ℕ} (h : key board ch = key board' ch') :
    board % 2 ^ 16 = board' % 2 ^ 16 ∧ ch % 2 ^ 16 = ch' % 2 ^ 16 := by
  have hlow : ch % 2 ^ 16 < 2 ^ 16 := Nat.mod_lt _ (by decide)
  have hlow' : ch' % 2 ^ 16 < 2 ^ 16 := Nat.mod_lt _ (by decide)
  have hkey : ∀ b c : ℕ, c < 2 ^ 16 → ((b <<< 16) ||| c) = b * 2 ^ 16 + c := by
    intro b c hc
    rw [Nat.shiftLeft_eq, Nat.mul_comm, ← Nat.two_pow_add_eq_or_of_lt hc]
  rw [key, key, hkey _ _ hlow, hkey _ _ hlow'] at h
  omega

theorem key_ne {board ch board' ch' : ℕ}
    (h : (board % 2 ^ 16, ch % 2 ^ 16) ≠ (board' % 2 ^ 16, ch' % 2 ^ 16)) :
    key board ch ≠ key board' ch' := by
  intro hkey
  obtain ⟨hboard, hch⟩ := key_injective hkey
  exact h (by rw [hboard, hch])

theorem fill_other (binning : Binning) (s : HistogramStore) (e : DecodedEvent) {k : ℕ}
    (h : k ≠ keyOf e) : (fill binning s e).ch k = s.ch k :=
  Function.update_of_ne h _ s.ch

def fillRecord (binning : Binning) (c : Option Channel) (e : DecodedEvent) : Option Channel :=
  some ((c.getD {}).fill binning e)

theorem foldl_fill_ch (binning : Binning) (events : List DecodedEvent) (s : HistogramStore) :
    (events.foldl (fill binning) s).ch = events.foldl (fun ch e =>
      Function.update ch (keyOf e) (fillRecord binning (ch (keyOf e)) e)) s.ch := by
  induction events generalizing s with
  | nil => rfl
  | cons e events ih => exact ih _

theorem foldl_fillRecord (binning : Binning) (events : List DecodedEvent) (c : Option Channel) :
    events.foldl (fillRecord binning) c =
      if events = [] then c else some (events.foldl (Channel.fill binning) (c.getD {})) := by
  induction events generalizing c with
  | nil => rfl
  | cons e events ih =>
    rw [List.foldl_cons, ih, if_neg (List.cons_ne_nil e events), List.foldl_cons]
    cases events with
    | nil => rfl
    | cons e' events => rfl

/-- Each record of the store accumulates the events of its key. -/
theorem foldl_fill (binning : Binning) (events : List DecodedEvent) (k : ℕ) :
    (events.foldl (fill binning) {}).ch k =
      if events.filter (fun e => keyOf e = k) = [] then none
      else some (Channel.accumulate binning (events.filter fun e => keyOf e = k)) := by
  rw [foldl_fill_ch, Transducer.foldl_keyed, foldl_fillRecord]
  rfl

theorem snapshot_foldl {β : Type} (item : Channel → β) (binning : Binning)
    (events : List DecodedEvent) (board ch : ℕ) :
    snapshot item (item {}) (events.foldl (fill binning) {}) board ch =
      item (Channel.accumulate binning (events.filter fun e => keyOf e = key board ch)) := by
  rw [snapshot, foldl_fill]
  by_cases hnone : events.filter (fun e => keyOf e = key board ch) = []
  · rw [if_pos hnone, hnone]
    rfl
  · rw [if_neg hnone]

end HistogramStore
end CaenDaq
