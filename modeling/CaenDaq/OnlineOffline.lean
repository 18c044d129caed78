import CaenDaq.TapAccounts

/-!
# What was shown and what was recorded

The spectra of a run are filled as it goes, from the blocks that the decode stage of a board
finds time for. Where it found time for all and the file took all, they are the spectra of
what the part files give when they are decoded afterwards.
-/

namespace CaenDaq
namespace Tapped

open Readout Transition Delivery OnlineSpectra AggregateDecoder AggregateStream BoardStream
  FileAggregates
open FileDecode hiding Sound
open RawFileWriter hiding payload

variable {cfg : WriterConfig} {binning : Binning}

theorem taken_all {fates : List (RawBlock × Bool)} (h : fates.filter (!·.2) = []) :
    (fates.filter (·.2)).map (·.1) = fates.map (·.1) := by
  rw [List.filter_eq_self.mpr]
  intro f hf
  simpa using List.filter_eq_nil_iff.mp h f hf

theorem written_all {r : Reader} (h : Counted r) (hpc : r.pc = .returned) (hwrite : r.write = true)
    (hdropped : r.blocksDropped = 0) : accepted r = r.blocks := by
  have hblocks := h.blocks hwrite
  have hcount := h.blocksDropped
  rw [hpc, idle_returned.inHand, List.append_nil] at hblocks
  rw [hpc, idle_returned.uncounted, hdropped] at hcount
  have hnone : r.fates.filter (!·.2) = [] :=
    List.map_eq_nil_iff.mp (List.length_eq_zero_iff.mp hcount.symm)
  rw [hblocks, accepted, taken_all hnone]

/-- When the first run of a `Daq` is over, with complete aggregates of their own id from all
boards and no file failures, and neither the file nor the decode stage of a board that writes
had to drop a block, the store and the counter of the stage are those of the board's events in
the part files. -/
theorem online_offline {before : List Daq.Call} {o : Launches}
    {infos : Fin (Daq.history cfg {} (before ++ [.start o])).runners.length → BoardInfo}
    {stages : Fin (Daq.history cfg {} (before ++ [.start o])).runners.length → Option Staging}
    {bs : List (TapAction _)} {s : Tapped _}
    (hrun : run (Tapped.step cfg binning) (.ofDaq (Daq.history cfg {} (before ++ [.start o]))
      fun i => (stages i).map .construct) bs = some s)
    (h : Recorded cfg before o (fun i => (infos i).boardRegId) (bs.filterMap label) s.base)
    (hfine : ∀ a ∈ bs.filterMap label, Fine a) (hstop : s.base.stopPc = .stopped)
    {boards : List XdaqBoardDef} {epochStartTime : Word}
    (hheader : Headed cfg boards epochStartTime)
    (hsize : ∀ p ∈ s.base.loop.writer.parts, p.content.length < 2 ^ 32)
    {i : Fin _} {st : Staging} (hst : stages i = some st) (hinfo : st.info = infos i)
    {t : DecodeTap} (htap : s.taps i = some t) (hwrite : (s.base.readers i).write = true)
    (hfile : (s.base.readers i).blocksDropped = 0) (hstage : t.queue.dropped = 0) :
    ∃ r, decodeBlocks (BoardIsolation.registerAll (List.ofFn infos))
        (s.base.loop.writer.parts.map Part.content) = .ok r ∧
      t.store = (r.events.filter fun e => e.board = (infos i).boardRegId).foldl
        (HistogramStore.fill binning) st.store ∧
      t.events = (r.events.filter fun e => e.board = (infos i).boardRegId).length := by
  obtain ⟨sent, hown, hshares, hfiles⟩ := h.files hfine hstop hheader hsize
  have hinvariant := (h.sound hfine).invariant
  have hreturned : (s.base.readers i).pc = .returned :=
    hinvariant.passed i (by rw [hstop]; trivial)
  have hwritten := written_all (hinvariant.readers i) hreturned hwrite hfile
  have hfits : ∀ b ∈ bs, ∀ a, label b = some a → Fits a := by
    refine fits_labels fun a ha => ?_
    cases a with
    | read j answer =>
      cases answer with
      | none => trivial
      | some block => exact (h.sends j block ha).size
    | _ => trivial
  have hkept := @run_kept cfg binning _ (Recording.started_boards h.started) _ _ hfits _ hrun
  obtain ⟨stage, fates, hfound, hhanded⟩ := hkept.handed i t htap
  rw [hst, Option.map_some] at hfound
  obtain rfl : DecodeStage.construct st = stage := Option.some.inj hfound
  have hbooks : Books binning st t := by
    refine hkept.books i t (.construct st) st htap ?_ (construct_books st)
    rw [hst]
    rfl
  obtain ⟨hblocks, hpc, hitems⟩ := stopped_handed hkept.steady hstop htap hhanded
  have hnew : t.fates = fates := hhanded.later
  have hdecoded : t.decoded = (share i sent).map payload := by
    have hnone := hhanded.counted rfl
    rw [hstage] at hnone
    have hall := taken_all (List.length_eq_zero_iff.mp (Nat.add_eq_zero_iff.mp hnone.symm).2)
    rw [← hbooks.all_decoded hpc hitems, hnew, hall, ← hblocks, ← hwritten, hshares]
  obtain ⟨r, hr⟩ := hbooks.filled
  have hsame : r = decoded (decodeWords (registerBoardInfo {} st.info)
      (stream (share i sent).flatten)) := by
    have heq := hr.decoded
    rw [hdecoded, board_blocks hown i] at heq
    exact (Except.ok.inj heq).symm
  have hevents := board_events h.distinct hown i
  rw [← hinfo] at hevents
  refine ⟨_, hfiles _, ?_, ?_⟩
  · show t.store = ((decodeWords _ _).1.filter _).foldl _ _
    rw [hr.store, hsame, ← hinfo, hevents]
    rfl
  · show t.events = ((decodeWords _ _).1.filter _).length
    have hcount := hr.events
    rw [hpc, hsame] at hcount
    rw [← hinfo, hevents]
    exact hcount

/-- The stage has one block, which it comes to when its board is already stopped. -/
def pairStored : List (TapAction pairDaq.runners.length) :=
  pairBlock ++ [.base .stop, .base .stopBoard, .base (.check pairFirst), .base .join,
    .base (.drainCheck true), .close pairFirst, .pop pairFirst, .ask pairFirst, .decode pairFirst,
    .append pairFirst, .leave pairFirst, .base .release, .base .stopBoard,
    .base (.check pairSecond), .base .join, .base (.drainCheck true), .base .release,
    .base .stopBoard, .base .pop, .base (.write {}), .base .writerReturn, .base (.joinWriter {} {})]

theorem stored_runs : ∃ s t, run (Tapped.step pairConfig flatBinning) (.ofDaq pairDaq pairStages)
    pairStored = some s ∧ s.taps pairFirst = some t ∧ s.base.stopPc = .stopped ∧
      (∀ p ∈ s.base.loop.writer.parts, p.content.length < 2 ^ 32) ∧
      (s.base.readers pairFirst).write = true ∧ (s.base.readers pairFirst).blocksDropped = 0 ∧
      t.queue.dropped = 0 ∧ t.events = 1 := by
  have hmap : (run (Tapped.step pairConfig flatBinning) (.ofDaq pairDaq pairStages) pairStored).bind
      (fun s => (s.taps pairFirst).map fun t => (s.base.stopPc,
        decide (∀ p ∈ s.base.loop.writer.parts, p.content.length < 2 ^ 32),
        (s.base.readers pairFirst).write, (s.base.readers pairFirst).blocksDropped, t.queue.dropped,
        t.events)) = some (.stopped, true, true, 0, 0, 1) := by decide +kernel
  obtain ⟨s, hs, hmap⟩ := Option.bind_eq_some_iff.mp hmap
  obtain ⟨t, ht, heq⟩ := Option.map_eq_some_iff.mp hmap
  simp only [Prod.mk.injEq] at heq
  exact ⟨s, t, hs, ht, heq.1, of_decide_eq_true heq.2.1, heq.2.2⟩

theorem stored_fine : ∀ a ∈ pairStored.filterMap label, Fine a := by
  have hwriting : Turn.Fine {} := ⟨⟨⟨rfl, rfl, rfl, rfl⟩, rfl⟩, rfl⟩
  simp only [pairStored, pairBlock, List.cons_append, List.nil_append, List.filterMap_cons,
    List.filterMap_nil, label]
  simp [Fine, hwriting]

theorem stored_sends : ∀ (i : Fin pairDaq.runners.length) block,
    .read i (some block) ∈ pairStored.filterMap label → Own (pairInfo i).boardRegId block := by
  intro i block hread
  simp only [pairStored, pairBlock, List.cons_append, List.nil_append, List.filterMap_cons,
    List.filterMap_nil, label, List.mem_cons, reduceCtorEq, Action.read.injEq, Option.some.injEq,
    false_or, List.not_mem_nil, or_false] at hread
  obtain ⟨rfl, rfl⟩ := hread
  exact ⟨⟨[hit 1], rfl, by decide⟩, by decide⟩

theorem online_offline_pair : ∃ s t, run (Tapped.step pairConfig flatBinning)
    (.ofDaq pairDaq pairStages) pairStored = some s ∧ s.taps pairFirst = some t ∧ t.events = 1 ∧
      ∃ r, decodeBlocks (BoardIsolation.registerAll (List.ofFn fun i : Fin 2 => pairInfo i))
          (s.base.loop.writer.parts.map Part.content) = .ok r ∧
        t.store =
          (r.events.filter fun e => e.board = 1).foldl (HistogramStore.fill flatBinning) {} ∧
        t.events = (r.events.filter fun e => e.board = 1).length := by
  obtain ⟨s, t, hrun, htap, hstop, hsize, hwrite, hfile, hstage, hone⟩ := stored_runs
  have hrecorded : Recorded pairConfig pair {} (fun i => (pairInfo i).boardRegId)
      (pairStored.filterMap label) s.base :=
    ⟨by decide +kernel, by decide +kernel, fun _ _ heq => Fin.ext (Nat.succ_injective heq),
      stored_sends, (layer pairConfig flatBinning).run_shown hrun⟩
  exact ⟨s, t, hrun, htap, hone, @online_offline pairConfig flatBinning pair {}
    (fun i => pairInfo i) pairStagings pairStored s hrun hrecorded stored_fine hstop pairBoards 7
    pairConfig_headed hsize pairFirst pairStage rfl rfl t htap hwrite hfile hstage⟩

end Tapped
end CaenDaq
