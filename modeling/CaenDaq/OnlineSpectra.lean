import CaenDaq.BoardIsolation
import CaenDaq.HistogramStore
import CaenDaq.RawFileWriter

/-!
# What the accessors show

Each board of a `Daq` has a decode stage with a decoder and a store of its own. The
stage fills the store under the register id that the aggregates carry, the accessors
ask for a board by its place in the `Daq`.
-/

namespace CaenDaq
namespace OnlineSpectra

open Checked Transducer AggregateDecoder AggregateStream DecoderRefinement BoardStream
  BoardIsolation

/-- `DecodeStage`, as far as the spectra go. -/
structure DecodeStage where
  decoder : AggregateDecoder
  store : HistogramStore := {}
  events : ℕ := 0

namespace DecodeStage

def ofInfo (info : BoardInfo) : DecodeStage := { decoder := registerBoardInfo {} info }

variable (binning : Binning)

/-- One block in `loop`: each event is filled into the store as it is decoded. -/
def decodeBlock (s : DecodeStage) (block : RawBlock) : Run DecodeStage := do
  let r ← decode s.decoder block
  pure
    { decoder := r.decoder
      store := r.events.foldl (HistogramStore.fill binning) s.store
      events := s.events + r.count }

def loop (s : DecodeStage) : List RawBlock → Run DecodeStage
  | [] => pure s
  | block :: blocks => do loop (← decodeBlock binning s block) blocks

/-- The stage fills its store with the events of its blocks. -/
theorem loop_ok (s : DecodeStage) {blocks : List RawBlock}
    (h : ∀ block ∈ blocks, block.length < 2 ^ 32) :
    ∃ r, decodeBlocks s.decoder blocks = .ok r ∧ loop binning s blocks = .ok
      { decoder := r.decoder
        store := r.events.foldl (HistogramStore.fill binning) s.store
        events := s.events + r.count } := by
  induction blocks generalizing s with
  | nil => exact ⟨_, rfl, rfl⟩
  | cons block blocks ih =>
    obtain ⟨r, hfirst⟩ : ∃ r, decode s.decoder block = .ok r :=
      ⟨_, decode_ok s.decoder (h block (by simp))⟩
    obtain ⟨t, hblocks, hloop⟩ := ih
      { decoder := r.decoder
        store := r.events.foldl (HistogramStore.fill binning) s.store
        events := s.events + r.count } fun b hb => h b (by simp [hb])
    refine ⟨⟨r.events ++ t.events, r.count + t.count, t.decoder⟩, ?_, ?_⟩
    · rw [decodeBlocks, hfirst, ok_bind, hblocks, ok_bind]
      rfl
    · rw [loop, decodeBlock, hfirst, ok_bind, pure_eq_ok, ok_bind, hloop, List.foldl_append,
        Nat.add_assoc]

end DecodeStage

structure OnlineBoard where
  info : BoardInfo
  blocks : List RawBlock := []

def eventsOf (o : OnlineBoard) : List DecodedEvent :=
  match decodeBlocks (registerBoardInfo {} o.info) o.blocks with
  | .ok r => r.events
  | .error _ => []

variable (binning : Binning)

/-- `Daq::histograms`: the store of the board at a place, if there is one. -/
def histograms (boards : List OnlineBoard) (b : ℕ) : Option HistogramStore :=
  boards[b]?.bind fun o =>
    match DecodeStage.loop binning (.ofInfo o.info) o.blocks with
    | .ok s => some s.store
    | .error _ => none

def energy (boards : List OnlineBoard) (b ch : ℕ) : Option (List Word) :=
  (histograms binning boards b).map fun s => s.energy b ch

def qshort (boards : List OnlineBoard) (b ch : ℕ) : Option (List Word) :=
  (histograms binning boards b).map fun s => s.qshort b ch

def qlong (boards : List OnlineBoard) (b ch : ℕ) : Option (List Word) :=
  (histograms binning boards b).map fun s => s.qlong b ch

/-- A plane with its shape, which is empty until there is something in it. -/
def plane (flat : List Word) : (ℕ × ℕ) × List Word :=
  if flat.isEmpty then ((0, 0), []) else ((Channel.kPsdXBins, Channel.kPsdYBins), flat)

def psd (boards : List OnlineBoard) (b ch : ℕ) : Option ((ℕ × ℕ) × List Word) :=
  (histograms binning boards b).map fun s => plane (s.psd b ch)

def interval (boards : List OnlineBoard) (b ch : ℕ) : Option (List Word) :=
  (histograms binning boards b).map fun s => s.interval b ch

def waveform (boards : List OnlineBoard) (b ch : ℕ) : Option (List Sample) :=
  (histograms binning boards b).map fun s => s.waveform b ch

def channelEvents (boards : List OnlineBoard) (b ch : ℕ) : Option ℕ :=
  (histograms binning boards b).map fun s => s.events b ch

structure Shows (boards : List OnlineBoard) (b ch : ℕ) (c : Channel) : Prop where
  energy : energy binning boards b ch = some c.energy
  qshort : qshort binning boards b ch = some c.qshort
  qlong : qlong binning boards b ch = some c.qlong
  psd : psd binning boards b ch = some (plane c.psd)
  interval : interval binning boards b ch = some c.interval
  waveform : waveform binning boards b ch = some c.lastWave
  channelEvents : channelEvents binning boards b ch = some c.counts.events

theorem histograms_eq {boards : List OnlineBoard} {b : ℕ} {o : OnlineBoard}
    (hb : boards[b]? = some o) (hblocks : ∀ block ∈ o.blocks, block.length < 2 ^ 32) :
    histograms binning boards b =
      some ((eventsOf o).foldl (HistogramStore.fill binning) {}) := by
  obtain ⟨r, hr, hloop⟩ := DecodeStage.loop_ok binning (.ofInfo o.info) hblocks
  have hevents : eventsOf o = r.events := by
    rw [eventsOf]
    change decodeBlocks (registerBoardInfo {} o.info) o.blocks = _ at hr
    rw [hr]
  rw [histograms, hb, Option.bind_some, hloop, hevents]
  rfl

theorem eventsOf_ids (o : OnlineBoard) (hblocks : ∀ block ∈ o.blocks, block.length < 2 ^ 32) :
    ∀ e ∈ eventsOf o, e.board = o.info.boardRegId ∧ e.channel < 2 ^ 16 := by
  have hstep : ∀ d : AggregateDecoder, (∀ b, b ≠ o.info.boardRegId → d.boards b = none) →
      ∀ words : List Word,
        (∀ e ∈ (decodeWords d words).1, e.board = o.info.boardRegId ∧ e.channel < 2 ^ 16) ∧
          ∀ b, b ≠ o.info.boardRegId → (decodeWords d words).2.boards b = none := by
    intro d hd words
    refine run_outputs_invariant (fun d => ∀ b, b ≠ o.info.boardRegId → d.boards b = none) _
      (fun d seg _ hd => ⟨fun e he => ?_, fun b hb => segmentStep_none d seg (hd b hb)⟩) d hd
    obtain ⟨_, hregistered, hchannel⟩ := segmentStep_ids d seg e he
    exact ⟨by_contra fun hne => hregistered (hd _ hne), hchannel⟩
  have hfirst : ∀ b, b ≠ o.info.boardRegId → (registerBoardInfo {} o.info).boards b = none := by
    intro b hb
    rw [registerBoardInfo_boards, if_neg hb]
  have hall := run_outputs_invariant
    (fun d : AggregateDecoder => ∀ b, b ≠ o.info.boardRegId → d.boards b = none) _
    (fun d words (_ : words ∈ o.blocks.map wordsOf) hd => hstep d hd words) _ hfirst
  rw [eventsOf, decodeBlocks_ok _ hblocks]
  exact hall.1

/-- The accessors show what the events of a channel accumulate to, whatever the store was
asked for. -/
theorem shows_filter {boards : List OnlineBoard} {b : ℕ} {o : OnlineBoard}
    (hb : boards[b]? = some o) (hblocks : ∀ block ∈ o.blocks, block.length < 2 ^ 32) (ch : ℕ) :
    Shows binning boards b ch (Channel.accumulate binning
      ((eventsOf o).filter fun e => HistogramStore.keyOf e = HistogramStore.key b ch)) := by
  have hstore := histograms_eq binning hb hblocks
  have hitem := fun (β : Type) (item : Channel → β) =>
    HistogramStore.snapshot_foldl item binning (eventsOf o) b ch
  constructor
  · rw [energy, hstore]
    exact congrArg some (hitem _ Channel.energy)
  · rw [qshort, hstore]
    exact congrArg some (hitem _ Channel.qshort)
  · rw [qlong, hstore]
    exact congrArg some (hitem _ Channel.qlong)
  · rw [psd, hstore]
    exact congrArg (fun flat => some (plane flat)) (hitem _ Channel.psd)
  · rw [interval, hstore]
    exact congrArg some (hitem _ Channel.interval)
  · rw [waveform, hstore]
    exact congrArg some (hitem _ Channel.lastWave)
  · rw [channelEvents, hstore]
    exact congrArg some (hitem _ fun c => c.counts.events)

/-- The accessors of a board show its channel exactly if the board's register id is its
place in the `Daq`, or there is nothing to show. -/
theorem shows_iff {boards : List OnlineBoard} {b : ℕ} {o : OnlineBoard}
    (hb : boards[b]? = some o) (hid : o.info.boardRegId < 32)
    (hblocks : ∀ block ∈ o.blocks, block.length < 2 ^ 32) {ch : ℕ} (hch : ch < 2 ^ 16) :
    Shows binning boards b ch
        (Channel.accumulate binning ((eventsOf o).filter fun e => e.channel = ch)) ↔
      b % 2 ^ 16 = o.info.boardRegId ∨ ∀ e ∈ eventsOf o, e.channel ≠ ch := by
  have hshows := shows_filter binning hb hblocks ch
  have hids := eventsOf_ids o hblocks
  have hid16 : o.info.boardRegId % 2 ^ 16 = o.info.boardRegId :=
    Nat.mod_eq_of_lt (lt_trans hid (by decide))
  have hch16 : ch % 2 ^ 16 = ch := Nat.mod_eq_of_lt hch
  constructor
  · intro h
    by_contra hneither
    obtain ⟨hplace, hsome⟩ := not_or.mp hneither
    have hempty : (eventsOf o).filter
        (fun e => HistogramStore.keyOf e = HistogramStore.key b ch) = [] := by
      apply List.filter_eq_nil_iff.mpr
      intro e he hkey
      obtain ⟨hboard, _⟩ := HistogramStore.key_injective (of_decide_eq_true hkey)
      rw [(hids e he).1, hid16] at hboard
      exact hplace hboard.symm
    have hcount := Option.some.inj (h.channelEvents.symm.trans hshows.channelEvents)
    rw [Channel.accumulate_events, Channel.accumulate_events, hempty, List.length_nil] at hcount
    refine hsome fun e he hc => ?_
    have hmem : e ∈ (eventsOf o).filter fun e => e.channel = ch :=
      List.mem_filter.mpr ⟨he, decide_eq_true hc⟩
    rw [List.eq_nil_of_length_eq_zero hcount] at hmem
    exact List.not_mem_nil hmem
  · intro h
    have hfilter : (eventsOf o).filter
        (fun e => HistogramStore.keyOf e = HistogramStore.key b ch) =
          (eventsOf o).filter fun e => e.channel = ch := by
      apply List.filter_congr
      intro e he
      obtain ⟨hboard, hchannel⟩ := hids e he
      apply decide_eq_decide.mpr
      constructor
      · intro hkey
        obtain ⟨_, hc⟩ := HistogramStore.key_injective hkey
        rwa [Nat.mod_eq_of_lt hchannel, hch16] at hc
      · intro hc
        rcases h with hplace | hnone
        · rw [HistogramStore.keyOf, HistogramStore.key, HistogramStore.key, hboard, hid16, hplace, hc]
        · exact absurd hc (hnone e he)
    rw [← hfilter]
    exact hshows

def boardOne : OnlineBoard :=
  { info := { boardRegId := 1, dppType := .pha, modelName := "V1730" }, blocks := [payload [hit 1]] }

def flatBinning : Binning := ⟨fun _ _ => 0, fun _ => 0⟩

theorem shows_iff_second :
    Shows flatBinning [{ info := {} }, boardOne] 1 0
        (Channel.accumulate flatBinning ((eventsOf boardOne).filter fun e => e.channel = 0)) ↔
      1 % 2 ^ 16 = boardOne.info.boardRegId ∨ ∀ e ∈ eventsOf boardOne, e.channel ≠ 0 :=
  shows_iff flatBinning rfl (by decide) (by decide) (by decide)

/-- Added first, the board has its event under a place that nobody asks for. -/
theorem first_board_shows_nothing :
    ((eventsOf boardOne).filter fun e => e.channel = 0).length = 1 ∧
      channelEvents flatBinning [boardOne] 0 0 = some 0 ∧
      ¬Shows flatBinning [boardOne] 0 0
        (Channel.accumulate flatBinning ((eventsOf boardOne).filter fun e => e.channel = 0)) := by
  have hone : ((eventsOf boardOne).filter fun e => e.channel = 0).length = 1 := by decide +kernel
  have hzero : channelEvents flatBinning [boardOne] 0 0 = some 0 := by decide +kernel
  refine ⟨hone, hzero, fun h => ?_⟩
  have hcount := Option.some.inj (h.channelEvents.symm.trans hzero)
  rw [Channel.accumulate_events, hone] at hcount
  exact absurd hcount (by decide)

end OnlineSpectra
end CaenDaq
