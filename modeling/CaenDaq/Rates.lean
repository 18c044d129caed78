import CaenDaq.HistogramStore
import CaenDaq.Transducer
import Mathlib.Algebra.Order.Field.Rat
import Mathlib.Data.List.Nodup
import Mathlib.Tactic.FieldSimp

/-!
# The rates of the statistics collector

What `StatsCollector::loop` does with a sample: it indexes the previous one by the
register ids of the boards and differences the counters over the time that has passed.
Rates are exact quotients.
-/

namespace CaenDaq

structure ChannelSample where
  board : UInt16
  ch : UInt16
  counts : Counts
  deriving DecidableEq

structure BoardSample where
  name : String := ""
  boardRegId : UInt16
  bytesWritten : ℕ := 0
  boardFail : ℕ := 0
  channels : List ChannelSample := []
  deriving DecidableEq

structure ChannelRate where
  board : UInt16
  ch : UInt16
  events : ℚ
  pileup : ℚ
  lost : ℚ
  satu : ℚ
  deriving DecidableEq

structure BoardRate where
  name : String
  boardRegId : UInt16
  writeRate : ℚ
  boardFail : ℕ
  channels : List ChannelRate
  deriving DecidableEq

namespace Rates

open Transducer

def keyOf (board ch : UInt16) : ℕ := HistogramStore.key board.toNat ch.toNat

theorem keyOf_injective {board ch board' ch' : UInt16} (h : keyOf board ch = keyOf board' ch') :
    board = board' ∧ ch = ch' := by
  have hlt : ∀ x : UInt16, x.toNat % 2 ^ 16 = x.toNat := fun x => Nat.mod_eq_of_lt x.toNat_lt
  obtain ⟨hboard, hch⟩ := HistogramStore.key_injective h
  rw [hlt, hlt] at hboard hch
  exact ⟨UInt16.toNat_inj.mp hboard, UInt16.toNat_inj.mp hch⟩

def prevBytes (prev : List BoardSample) : UInt16 → Option ℕ :=
  prev.foldl (fun m b => Function.update m b.boardRegId (some b.bytesWritten)) fun _ => none

def indexChannels (channels : List ChannelSample) (pc : ℕ → Option Counts) : ℕ → Option Counts :=
  channels.foldl (fun pc c => Function.update pc (keyOf c.board c.ch) (some c.counts)) pc

def prevCounts (prev : List BoardSample) : UInt16 → ℕ → Option Counts :=
  prev.foldl (fun m b => Function.update m b.boardRegId (indexChannels b.channels (m b.boardRegId)))
    fun _ _ => none

/-- A counter that has gone down gives no rate. -/
def rate (now before : ℕ) (dt : ℚ) : ℚ := if now ≥ before then ((now - before : ℕ) : ℚ) / dt else 0

def channelRate (pc : ℕ → Option Counts) (dt : ℚ) (c : ChannelSample) : ChannelRate :=
  let p := (pc (keyOf c.board c.ch)).getD {}
  { board := c.board
    ch := c.ch
    events := rate c.counts.events p.events dt
    pileup := rate c.counts.pileup p.pileup dt
    lost := rate c.counts.lost p.lost dt
    satu := rate c.counts.satu p.satu dt }

def boardRate (prev : List BoardSample) (dt : ℚ) (b : BoardSample) : BoardRate :=
  let pb := (prevBytes prev b.boardRegId).getD b.bytesWritten
  { name := b.name
    boardRegId := b.boardRegId
    writeRate := rate b.bytesWritten pb dt
    boardFail := b.boardFail
    channels := b.channels.map (channelRate (prevCounts prev b.boardRegId) dt) }

def rates (prev cur : List BoardSample) (dt : ℚ) : List BoardRate := cur.map (boardRate prev dt)

def elapsed (prevTime now : ℚ) : ℚ :=
  let dt := now - prevTime
  if dt ≤ 0 then 1 / 1000000 else dt

/-- What the loop keeps from one tick to the next, and what it shows. -/
structure Baseline where
  prev : List BoardSample := []
  prevTime : ℚ
  latest : List BoardRate := []

/-- One tick: when it is over, and what the sampler returned, if it returned. -/
structure Tick where
  now : ℚ
  sample : Option (List BoardSample)

/-- Before the first tick: a sampler that throws leaves an empty sample. -/
def begin (sample : Option (List BoardSample)) (now : ℚ) : Baseline :=
  { prev := sample.getD [], prevTime := now }

/-- One tick. It publishes rates, and over how long, unless the sampler throws. -/
def tick (s : Baseline) (t : Tick) : List (List BoardRate × ℚ) × Baseline :=
  match t.sample with
  | none => ([], s)
  | some cur =>
    let dt := elapsed s.prevTime t.now
    let published := rates s.prev cur dt
    ([(published, dt)], { prev := cur, prevTime := t.now, latest := published })

structure RunnerStats where
  name : String := ""
  boardRegId : ℕ
  bytesWritten : ℕ := 0
  boardFailures : ℕ := 0
  channels : List ChannelSample := []

def sampleStats (runners : List RunnerStats) : List BoardSample :=
  runners.map fun r =>
    { name := r.name
      boardRegId := UInt16.ofNat r.boardRegId
      bytesWritten := r.bytesWritten
      boardFail := r.boardFailures
      channels := r.channels }

def counterOf (b : BoardSample) (board ch : UInt16) : Counts :=
  ((b.channels.find? fun c => c.board = board ∧ c.ch = ch).map ChannelSample.counts).getD {}

inductive Counter
  | events | pileup | lost | satu

def Counter.ofCounts : Counter → Counts → ℕ
  | events, c => c.events
  | pileup, c => c.pileup
  | lost, c => c.lost
  | satu, c => c.satu

def Counter.ofRate : Counter → ChannelRate → ℚ
  | events, r => r.events
  | pileup, r => r.pileup
  | lost, r => r.lost
  | satu, r => r.satu

def ownChannelRate (dt : ℚ) (own : Counts) (c : ChannelSample) : ChannelRate where
  board := c.board
  ch := c.ch
  events := ((c.counts.events : ℚ) - own.events) / dt
  pileup := ((c.counts.pileup : ℚ) - own.pileup) / dt
  lost := ((c.counts.lost : ℚ) - own.lost) / dt
  satu := ((c.counts.satu : ℚ) - own.satu) / dt

def ownRate (dt : ℚ) (p b : BoardSample) : BoardRate where
  name := b.name
  boardRegId := b.boardRegId
  writeRate := ((b.bytesWritten : ℚ) - p.bytesWritten) / dt
  boardFail := b.boardFail
  channels := b.channels.map fun c => ownChannelRate dt (counterOf p c.board c.ch) c

/-- The channels of a sample are told apart. -/
def Distinct (b : BoardSample) : Prop := (b.channels.map fun c => (c.board, c.ch)).Nodup

/-- One board sampled twice: the counters do not decrease. -/
structure Grows (p b : BoardSample) : Prop where
  boardRegId : b.boardRegId = p.boardRegId
  distinct : Distinct p
  bytesWritten : p.bytesWritten ≤ b.bytesWritten
  channels : ∀ c ∈ b.channels, ∀ k : Counter,
    k.ofCounts (counterOf p c.board c.ch) ≤ k.ofCounts c.counts

theorem rate_of_le {now before : ℕ} (h : before ≤ now) (dt : ℚ) :
    rate now before dt = ((now : ℚ) - before) / dt := by
  rw [rate, if_pos h, Nat.cast_sub h]

theorem indexChannels_eq {channels : List ChannelSample}
    (h : (channels.map fun c => (c.board, c.ch)).Nodup) (pc : ℕ → Option Counts)
    (board ch : UInt16) : indexChannels channels pc (keyOf board ch) =
      ((channels.find? fun c => c.board = board ∧ c.ch = ch).map ChannelSample.counts).or
        (pc (keyOf board ch)) := by
  induction channels generalizing pc with
  | nil => rfl
  | cons c channels ih =>
    rw [List.map_cons, List.nodup_cons] at h
    rw [indexChannels, List.foldl_cons, ← indexChannels, ih h.2, List.find?_cons]
    by_cases hsame : c.board = board ∧ c.ch = ch
    · obtain ⟨rfl, rfl⟩ := hsame
      have hnone : (channels.find? fun d => d.board = c.board ∧ d.ch = c.ch) = none := by
        rw [List.find?_eq_none]
        intro d hd hsame
        have hpair := of_decide_eq_true hsame
        exact h.1 (List.mem_map.mpr ⟨d, hd, Prod.ext hpair.1 hpair.2⟩)
      rw [hnone, Function.update_self]
      simp
    · have hkey : keyOf board ch ≠ keyOf c.board c.ch := by
        intro hkey
        obtain ⟨hboard, hch⟩ := keyOf_injective hkey
        exact hsame ⟨hboard.symm, hch.symm⟩
      rw [Function.update_of_ne hkey]
      simp [hsame]

theorem prev_own {prev : List BoardSample} (hids : (prev.map BoardSample.boardRegId).Nodup)
    {p : BoardSample} (hp : p ∈ prev) (hdistinct : Distinct p) :
    prevBytes prev p.boardRegId = some p.bytesWritten ∧ ∀ board ch,
      (prevCounts prev p.boardRegId (keyOf board ch)).getD {} = counterOf p board ch := by
  constructor
  · exact foldl_keyed_unique hids (fun _ b => some b.bytesWritten) _ hp
  · intro board ch
    have hown := foldl_keyed_unique hids (fun pc b => indexChannels b.channels pc)
      (fun _ _ => none) hp
    rw [prevCounts, hown, indexChannels_eq hdistinct, Option.or_none]
    rfl

theorem boardRate_own {prev : List BoardSample} (hids : (prev.map BoardSample.boardRegId).Nodup)
    {p b : BoardSample} (hp : p ∈ prev) (h : Grows p b) (dt : ℚ) :
    boardRate prev dt b = ownRate dt p b := by
  obtain ⟨hbytes, hcounts⟩ := prev_own hids hp h.distinct
  have hchannels : b.channels.map (channelRate (prevCounts prev p.boardRegId) dt) =
      (ownRate dt p b).channels := by
    apply List.map_congr_left
    intro c hc
    have hevents : (counterOf p c.board c.ch).events ≤ c.counts.events := h.channels c hc .events
    have hpileup : (counterOf p c.board c.ch).pileup ≤ c.counts.pileup := h.channels c hc .pileup
    have hlost : (counterOf p c.board c.ch).lost ≤ c.counts.lost := h.channels c hc .lost
    have hsatu : (counterOf p c.board c.ch).satu ≤ c.counts.satu := h.channels c hc .satu
    simp only [channelRate, hcounts, rate_of_le hevents, rate_of_le hpileup, rate_of_le hlost,
      rate_of_le hsatu, ownChannelRate]
  rw [boardRate, h.boardRegId, hbytes, hchannels, Option.getD_some, rate_of_le h.bytesWritten,
    ← h.boardRegId]
  rfl

/-- With distinct register ids, the rates are each board's own differences. -/
theorem rates_own {prev cur : List BoardSample} (hids : (prev.map BoardSample.boardRegId).Nodup)
    (h : List.Forall₂ Grows prev cur) (dt : ℚ) :
    rates prev cur dt = List.zipWith (ownRate dt) prev cur := by
  have hall : ∀ {ps bs : List BoardSample}, List.Forall₂ Grows ps bs → ps ⊆ prev →
      bs.map (boardRate prev dt) = List.zipWith (ownRate dt) ps bs := by
    intro ps bs hgrows
    induction hgrows with
    | nil => exact fun _ => rfl
    | cons hfirst _ ih =>
      intro hsub
      rw [List.map_cons, List.zipWith_cons_cons, boardRate_own hids (hsub List.mem_cons_self) hfirst,
        ih fun x hx => hsub (List.mem_cons_of_mem _ hx)]
  exact hall h (List.Subset.refl prev)

theorem elapsed_of_lt {prevTime now : ℚ} (h : prevTime < now) : elapsed prevTime now = now - prevTime :=
  if_neg (not_le.mpr (sub_pos.mpr h))

def RunnerStats.board (r : RunnerStats) : String × ℕ := (r.name, r.boardRegId)

theorem sampleStats_ids (runners : List RunnerStats) :
    (sampleStats runners).map BoardSample.boardRegId =
      (runners.map RunnerStats.board).map fun b => UInt16.ofNat b.2 := by
  rw [sampleStats, List.map_map, List.map_map]
  rfl

/-- What a tick publishes for the given boards, sampled twice, is each board's own
differences. -/
def OwnDifferences (boards : List (String × ℕ)) : Prop :=
  ∀ before after : List RunnerStats,
    before.map RunnerStats.board = boards → after.map RunnerStats.board = boards →
    List.Forall₂ Grows (sampleStats before) (sampleStats after) →
    ∀ (s : Baseline) (now : ℚ), s.prev = sampleStats before → s.prevTime < now →
      (tick s ⟨now, some (sampleStats after)⟩).2.latest =
        List.zipWith (ownRate (now - s.prevTime)) (sampleStats before) (sampleStats after)

def written (bytes : ℕ → ℕ) (boards : List (String × ℕ)) : List RunnerStats :=
  boards.mapIdx fun i b => { name := b.1, boardRegId := b.2, bytesWritten := bytes i }

theorem written_boards (bytes : ℕ → ℕ) (boards : List (String × ℕ)) :
    (written bytes boards).map RunnerStats.board = boards := by
  apply List.ext_getElem
  · simp [written]
  · intro i _ _
    simp [written, RunnerStats.board]

theorem sampleStats_written (bytes : ℕ → ℕ) (boards : List (String × ℕ)) :
    sampleStats (written bytes boards) = boards.mapIdx fun i b =>
      { name := b.1, boardRegId := UInt16.ofNat b.2, bytesWritten := bytes i } := by
  apply List.ext_getElem
  · simp [sampleStats, written]
  · intro i _ _
    simp [sampleStats, written]

theorem written_grows {bytes bytes' : ℕ → ℕ} {boards : List (String × ℕ)}
    (h : ∀ i < boards.length, bytes i ≤ bytes' i) :
    List.Forall₂ Grows (sampleStats (written bytes boards))
      (sampleStats (written bytes' boards)) := by
  rw [sampleStats_written, sampleStats_written, List.forall₂_iff_get]
  refine ⟨by rw [List.length_mapIdx, List.length_mapIdx], fun i hi hi' => ?_⟩
  rw [List.length_mapIdx] at hi
  simp only [List.get_eq_getElem, List.getElem_mapIdx]
  exact ⟨rfl, List.nodup_nil, h i hi, fun c hc => absurd hc List.not_mem_nil⟩

/-- The rates of every board are its own differences, whatever the samples, exactly if no two
boards report the same register id. -/
theorem own_differences_iff (boards : List (String × ℕ)) :
    OwnDifferences boards ↔ (boards.map fun b => UInt16.ofNat b.2).Nodup := by
  constructor
  · intro hown
    -- the bytes written before are the positions, so that no two boards have the same rate
    let prev := sampleStats (written id boards)
    have hrate : ∀ i (hi : i < boards.length), rate boards.length
        ((prevBytes prev (UInt16.ofNat boards[i].2)).getD boards.length) 1 =
          ((boards.length : ℚ) - i) / 1 := by
      intro i hi
      have hall := hown (written id boards) (written (fun _ => boards.length) boards)
        (written_boards _ _) (written_boards _ _) (written_grows fun i hi => hi.le)
        { prev := prev, prevTime := 0 } 1 rfl one_pos
      have hith := congrArg (fun l : List BoardRate => (l[i]?).map BoardRate.writeRate) hall
      have hone : elapsed 0 1 = 1 := (elapsed_of_lt one_pos).trans (sub_zero 1)
      simpa [tick, rates, boardRate, ownRate, hone, sampleStats_written, hi, prev] using hith
    rw [List.nodup_iff_injective_get]
    rintro ⟨i, hi⟩ ⟨j, hj⟩ hsame
    rw [List.length_map] at hi hj
    simp only [List.get_eq_getElem, List.getElem_map] at hsame
    have hequal := (hrate i hi).symm.trans (hsame ▸ hrate j hj)
    rw [div_one, div_one, sub_right_inj] at hequal
    exact Fin.ext (Nat.cast_injective hequal)
  · intro hids before after hbefore _ hgrows s now hprev htime
    have hnodup : ((sampleStats before).map BoardSample.boardRegId).Nodup := by
      rw [sampleStats_ids, hbefore]
      exact hids
    show rates s.prev (sampleStats after) (elapsed s.prevTime now) = _
    rw [hprev, elapsed_of_lt htime]
    exact rates_own hnodup hgrows _

/-- Two boards of the same model that both report register id 3. -/
def twins : List (String × ℕ) := [("V1725", 3), ("V1725", 3)]

/-- The first writes 1000 bytes in a second, and is differenced against the other one. -/
theorem twins_mixed : ¬OwnDifferences twins := by
  intro h
  let before : ℕ → ℕ := fun i => if i = 0 then 5000 else 1000
  let after : ℕ → ℕ := fun i => if i = 0 then 6000 else 1000
  have hgrows : ∀ i < twins.length, before i ≤ after i := by decide
  have hlatest := h (written before twins) (written after twins) rfl rfl (written_grows hgrows)
    { prev := sampleStats (written before twins), prevTime := 0 } 1 rfl one_pos
  have hrates := congrArg (List.map BoardRate.writeRate) hlatest
  have hshown : (tick { prev := sampleStats (written before twins), prevTime := 0 }
      ⟨1, some (sampleStats (written after twins))⟩).2.latest.map BoardRate.writeRate =
        [5000, 0] := by decide +kernel
  have hown : (List.zipWith (ownRate (1 - 0)) (sampleStats (written before twins))
      (sampleStats (written after twins))).map BoardRate.writeRate = [1000, 0] := by decide +kernel
  have hequal := (hshown.symm.trans hrates).trans hown
  exact absurd hequal (by decide +kernel)

end Rates
end CaenDaq
