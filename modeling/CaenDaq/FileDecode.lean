import CaenDaq.FileAggregates

/-!
# Decoding what a run recorded

The part files of a run hold the aggregates of all boards, in the order in which the
writer came to them. Decoded one after the other they give the events that each board's
blocks give by themselves.
-/

namespace CaenDaq
namespace FileDecode

open Checked Transducer AggregateDecoder AggregateStream DecoderRefinement BoardStream
open CutStream Readout FiledBlocks FileAggregates
open RawFileWriter hiding payload

variable {n : ℕ} {cfg : WriterConfig}

theorem exists_sent {ids : Fin n → ℕ} {s : Readout n}
    (hown : ∀ i, Received (fun i block => Own (ids i) block) i (s.readers i))
    {blocks : List (Fin n × RawBlock)}
    (hblocks : ∀ i, Delivery.accepted (s.readers i) = Delivery.ofBoard i blocks) :
    ∃ sent : List (Fin n × List BoardAggregate),
      blocks = sent.map (fun b => (b.1, payload b.2)) ∧
        Sent ids sent ∧
        ∀ i, Delivery.accepted (s.readers i) = (share i sent).map payload := by
  have hall : ∀ b ∈ blocks, Own (ids b.1) b.2 := by
    intro b hb
    have hmem : b.2 ∈ Delivery.accepted (s.readers b.1) := by
      rw [hblocks, Delivery.ofBoard]
      exact List.mem_map_of_mem (List.mem_filter.mpr ⟨hb, decide_eq_true rfl⟩)
    obtain ⟨f, hf, hblock⟩ := List.mem_map.mp hmem
    rw [← hblock]
    exact (hown b.1).fates f (List.mem_of_mem_filter hf)
  obtain ⟨sent, rfl, hids⟩ := exists_aggregates hall
  exact ⟨sent, rfl, hids, fun i => by rw [hblocks, share_payload]⟩

/-- The first run of a `Daq`, any schedule of it, and boards with distinct ids whose blocks are
complete aggregates of their own, below 4 GiB. -/
structure Recorded (cfg : WriterConfig) (before : List Daq.Call) (o : Launches)
    (ids : Fin (Daq.history cfg {} (before ++ [.start o])).runners.length → ℕ)
    (schedule : List (Action (Daq.history cfg {} (before ++ [.start o])).runners.length))
    (s : Readout (Daq.history cfg {} (before ++ [.start o])).runners.length) : Prop where
  started : ((Daq.history cfg {} before).start cfg o).1 = true
  first : Daq.launches cfg {} (before ++ [.start o]) = 1
  distinct : Function.Injective ids
  sends : ∀ i block, .read i (some block) ∈ schedule → Own (ids i) block
  run : Transition.run (step cfg) (ofDaq (Daq.history cfg {} (before ++ [.start o]))) schedule =
    some s

namespace Recorded

variable {before : List Daq.Call} {o : Launches}
  {ids : Fin (Daq.history cfg {} (before ++ [.start o])).runners.length → ℕ}
  {schedule : List (Action (Daq.history cfg {} (before ++ [.start o])).runners.length)}
  {s : Readout (Daq.history cfg {} (before ++ [.start o])).runners.length}

theorem begins (h : Recorded cfg before o ids schedule s) :
    Recording.Accounts cfg (Daq.history cfg {} (before ++ [.start o])) 1 ∧
      (Daq.history cfg {} (before ++ [.start o])).running = true := by
  have haccounts := Recording.history_accounts cfg Recording.accounts_new (before ++ [.start o])
  rw [Nat.zero_add, h.first] at haccounts
  exact ⟨haccounts, Recording.started_running h.started⟩

theorem stocked (h : Recorded cfg before o ids schedule s) :
    ∃ given, Stocked cfg given s.traffic := by
  obtain ⟨haccounts, hrunning⟩ := h.begins
  exact run_stocked (ofDaq_stocked haccounts hrunning) h.run

theorem received (h : Recorded cfg before o ids schedule s) (i : Fin _) :
    Received (fun i block => Own (ids i) block) i (s.readers i) :=
  run_received h.sends (ofDaq_received _ _) h.run i

theorem invariant (h : Recorded cfg before o ids schedule s)
    (hfine : ∀ a ∈ schedule, Delivery.Fine a) : Delivery.Invariant s := by
  obtain ⟨haccounts, hrunning⟩ := h.begins
  exact Transition.run_invariant
    (fun _ _ a ha hinv hstep => Delivery.step_invariant hinv (hfine a ha) hstep)
    (Delivery.ofDaq_invariant haccounts hrunning) h.run

end Recorded

/-- Nothing has been written since the last flush, or all of it is on the device. -/
def Flushed (l : WriterLoop) : Prop :=
  l.dirty = false → l.writer.blocks = [] ∨ l.writer.file.buffer = []

theorem turn_flushed {l : WriterLoop} (hl : l.Flawless) (h : Flushed l) {t : Turn} (ht : t.Fine) :
    Flushed (WriterLoop.turn cfg l t) := by
  have hflush : ∀ {l : WriterLoop}, l.writer.Flawless → (l.dirty = false → Flushed l) →
      Flushed (WriterLoop.flushIfDue t l) := by
    intro l hl hclean
    unfold WriterLoop.flushIfDue
    split
    · have hopen : ¬(l.writer.closed || !l.writer.file.isOpen) = true := by
        simp [hl.closed, hl.isOpen]
      intro _
      show (RawFileWriter.flush t.flush l.writer).2.blocks = [] ∨
        (RawFileWriter.flush t.flush l.writer).2.file.buffer = []
      rw [RawFileWriter.flush, if_neg hopen]
      exact .inr ((BufferedStream.flush_buffer _ _).mpr (.inr ⟨hl.good, ht.flush⟩))
    · intro hdirty
      exact hclean hdirty hdirty
  have hbefore : ¬l.writerFailed = true := by simp [hl.writerFailed]
  unfold WriterLoop.turn
  rw [if_neg hbefore]
  cases hblock : t.block with
  | none => exact hflush hl.writer fun _ => h
  | some block =>
    have hwrite : (l.writer.write cfg block t.writing).1 = true ∧
        (l.writer.write cfg block t.writing).2.Flawless :=
      RawFileWriter.write_flawless hl.writer ht.writing
    simp only [hwrite.1, Bool.not_true, Bool.false_eq_true, if_false]
    exact hflush hwrite.2 fun hdirty => absurd hdirty.symm Bool.false_ne_true

/-- As long as nothing fails the writer goes on, and keeps all that it was given. -/
structure Sound (s : Readout n) : Prop where
  invariant : Delivery.Invariant s
  closes : Closes s
  unfailed : s.loop.writerFailed = false
  complete : ∀ p ∈ s.loop.writer.parts, p.Complete
  flushed : s.loop.writer.closed = false → Flushed s.loop

theorem step_sound {s s' : Readout n} {a : Action n} (h : Sound s) (ha : Delivery.Fine a)
    (hstep : s.step cfg a = some s') : Sound s' := by
  have hinvariant := Delivery.step_invariant h.invariant ha hstep
  have hcloses := step_closes h.closes hstep
  have hloop : s'.loop = s.loop → Sound s' := fun hloop =>
    ⟨hinvariant, hcloses, by rw [hloop]; exact h.unfailed, by rw [hloop]; exact h.complete,
      by rw [hloop]; exact h.flushed⟩
  have hturn : ∀ turn : Turn, turn.Fine → s.writerPc ≠ .returned →
      s'.loop = WriterLoop.turn cfg s.loop turn → Sound s' := by
    intro turn hfine hbusy hloop
    obtain ⟨_, hflawless⟩ := h.invariant.writer_busy hbusy
    obtain ⟨hnext, _⟩ := WriterLoop.turn_flawless cfg hflawless hfine
    have hflushed : Flushed (WriterLoop.turn cfg s.loop turn) :=
      turn_flushed hflawless (h.flushed hflawless.ready.closed) hfine
    rw [← hloop] at hnext hflushed
    exact ⟨hinvariant, hcloses, hnext.writerFailed, hnext.writer.complete, fun _ => hflushed⟩
  cases step_takes hstep with
  | write turn block hpc =>
    exact hturn { turn with block := some block.2 } ⟨ha.writing, ha.flush⟩
      (by rw [hpc]; nofun) rfl
  | idle turn hpc =>
    exact hturn { turn with block := none } ⟨ha.writing, ha.flush⟩ (by rw [hpc]; nofun) rfl
  | joinWriter flush close hpc hreturned =>
    refine ⟨hinvariant, hcloses, h.unfailed, ?_, fun hopen => ?_⟩
    swap
    · exact absurd ((close_closed flush close _).symm.trans hopen) Bool.noConfusion
    rcases h.invariant.writer (by rw [hpc]; nofun) with hflawless | hno
    · exact (close_complete hflawless.ready flush close).mpr ⟨h.complete, fun _ => .inr (.inr ha)⟩
    · rw [hno.loop]
      exact fun p hp => absurd hp List.not_mem_nil
  | check => exact hloop rfl
  | read => exact hloop rfl
  | waited => exact h
  | pushed => exact hloop rfl
  | count => exact hloop rfl
  | pop => exact hloop rfl
  | writerReturn => exact hloop rfl
  | stop => exact hloop rfl
  | stopBoard => exact hloop rfl
  | skipBoard => exact hloop rfl
  | closeQueue => exact hloop rfl
  | join => exact hloop rfl
  | drainMore => exact hloop rfl
  | drainDone => exact hloop rfl
  | release => exact hloop rfl

theorem Recorded.sound {before : List Daq.Call} {o : Launches}
    {ids : Fin (Daq.history cfg {} (before ++ [.start o])).runners.length → ℕ}
    {schedule : List (Action _)} {s : Readout _} (h : Recorded cfg before o ids schedule s)
    (hfine : ∀ a ∈ schedule, Delivery.Fine a) : Sound s := by
  obtain ⟨haccounts, hrunning⟩ := h.begins
  have hinvariant := Delivery.ofDaq_invariant haccounts hrunning
  refine Transition.run_invariant
    (fun _ _ a ha hsound hstep => step_sound hsound (hfine a ha) hstep)
    ⟨hinvariant, nofun, haccounts.writerFailed, ?_, fun hopen _ => .inl ?_⟩ h.run
  · rcases hinvariant.writer nofun with hflawless | hno
    · exact hflawless.writer.complete
    · rw [hno.loop]
      exact fun p hp => absurd hp List.not_mem_nil
  · have hfiled := (ofDaq_stocked haccounts hrunning).filed haccounts.writerFailed hopen
    exact (List.append_eq_nil_iff.mp hfiled.blocks).2

theorem board_events {infos : Fin n → BoardInfo}
    (hids : Function.Injective fun i => (infos i).boardRegId)
    {sent : List (Fin n × List BoardAggregate)}
    (hown : Sent (fun i => (infos i).boardRegId) sent) (i : Fin n) :
    (decodeWords (BoardIsolation.registerAll (List.ofFn infos)) (stream (all sent))).1.filter
        (fun e => e.board = (infos i).boardRegId) =
      (decodeWords (registerBoardInfo {} (infos i)) (stream (share i sent).flatten)).1 := by
  have hnodup : ((List.ofFn infos).map BoardInfo.boardRegId).Nodup := by
    rw [List.map_ofFn]
    exact List.nodup_ofFn.mpr hids
  have hmem : infos i ∈ List.ofFn infos := (List.mem_ofFn' infos _).mpr ⟨i, rfl⟩
  have hrun := BoardIsolation.run_board (BoardIsolation.registerAll_boards hnodup hmem)
    (segments (stream (all sent)))
  rw [← BoardIsolation.segments_ofBoard, ofBoard_all hids hown] at hrun
  exact hrun

theorem events_registered {infos : List BoardInfo} (words : List Word) :
    ∀ e ∈ (decodeWords (BoardIsolation.registerAll infos) words).1,
      e.board ∈ infos.map BoardInfo.boardRegId := by
  refine (run_outputs_invariant
    (fun d : AggregateDecoder => ∀ b, b ∉ infos.map BoardInfo.boardRegId → d.boards b = none) _
    (fun d seg _ hd =>
      ⟨fun e he => ?_, fun b hb => BoardIsolation.segmentStep_none d seg (hd b hb)⟩)
    _ ?_).1
  · obtain ⟨_, hregistered, _⟩ := BoardIsolation.segmentStep_ids d seg e he
    exact by_contra fun hno => hregistered (hd _ hno)
  · intro b hb
    exact BoardIsolation.foldl_register_other infos {} hb

/-- What the part files hold when a run is over whose files could be written. -/
theorem Recorded.files {before : List Daq.Call} {o : Launches}
    {ids : Fin (Daq.history cfg {} (before ++ [.start o])).runners.length → ℕ}
    {schedule : List (Action _)} {s : Readout _} (h : Recorded cfg before o ids schedule s)
    (hfine : ∀ a ∈ schedule, Delivery.Fine a) (hstop : s.stopPc = .stopped)
    {boards : List XdaqBoardDef} {epochStartTime : Word}
    (hheader : Headed cfg boards epochStartTime)
    (hsize : ∀ p ∈ s.loop.writer.parts, p.content.length < 2 ^ 32) :
    ∃ sent, Sent ids sent ∧
      (∀ i, Delivery.accepted (s.readers i) = (share i sent).map payload) ∧
      ∀ d, decodeBlocks d (s.loop.writer.parts.map Part.content) =
        .ok (decoded (decodeWords d (stream (all sent)))) := by
  have hsound := h.sound hfine
  obtain ⟨hreturned, hclosed⟩ := hsound.closes hstop
  obtain ⟨given, hstocked⟩ := h.stocked
  have hpipeline : ∀ i, Delivery.accepted (s.readers i) = Delivery.ofBoard i given := by
    intro i
    have hheld : Delivery.held s.traffic.writerPc ++ s.traffic.items = [] := by
      show Delivery.held s.writerPc ++ s.queue.items = []
      rw [hreturned, (hsound.invariant.returned hreturned).1]
      rfl
    have hall := hstocked.pipeline i
    rwa [List.append_assoc, hheld, List.append_nil] at hall
  obtain ⟨sent, rfl, hown, hshares⟩ := exists_sent (fun i => h.received i) hpipeline
  obtain ⟨hkept, hheads, hblocks, _⟩ := hstocked.shelved hsound.unfailed hclosed
  rw [bytes_payload] at hblocks
  obtain ⟨pieces, hpieces, hflat⟩ := exists_pieces_eq hblocks
  have hfinds := parts_find hheader hkept hheads hsound.complete hpieces
  have hall : (pieces.map List.flatten).flatten = all sent := by
    rw [← List.flatten_flatten, hflat, flatten_filter]
    rfl
  refine ⟨sent, hown, hshares, fun d => ?_⟩
  have hfiles := decodeBlocks_finds d hfinds (List.forall_mem_map.mpr hsize)
  rwa [hall] at hfiles

theorem board_blocks {ids : Fin n → ℕ} {sent : List (Fin n × List BoardAggregate)}
    (hown : Sent ids sent) (i : Fin n) (d : AggregateDecoder) :
    decodeBlocks d ((share i sent).map payload) =
      .ok (decoded (decodeWords d (stream (share i sent).flatten))) := by
  refine BoardIsolation.decodeBlocks_payload d fun as has => ?_
  obtain ⟨b, hb, rfl⟩ := List.mem_map.mp has
  exact hown.size b (List.mem_of_mem_filter hb)

/-- When a first run of complete aggregates is over whose files could be written, below 4 GiB
each, a decoder that knows all its boards finds in the part files the events that each board's
blocks give by themselves, in the order of the blocks and with their times, and no others. -/
theorem files_decode {before : List Daq.Call} {o : Launches}
    {infos : Fin (Daq.history cfg {} (before ++ [.start o])).runners.length → BoardInfo}
    {schedule : List (Action _)} {s : Readout _}
    (h : Recorded cfg before o (fun i => (infos i).boardRegId) schedule s)
    (hfine : ∀ a ∈ schedule, Delivery.Fine a) (hstop : s.stopPc = .stopped)
    {boards : List XdaqBoardDef} {epochStartTime : Word}
    (hheader : Headed cfg boards epochStartTime)
    (hsize : ∀ p ∈ s.loop.writer.parts, p.content.length < 2 ^ 32) :
    ∃ r, decodeBlocks (BoardIsolation.registerAll (List.ofFn infos))
        (s.loop.writer.parts.map Part.content) = .ok r ∧
      (∀ e ∈ r.events, ∃ i, e.board = (infos i).boardRegId) ∧
      ∀ i, ∃ t, decodeBlocks (registerBoardInfo {} (infos i)) (Delivery.accepted (s.readers i)) =
          .ok t ∧ r.events.filter (fun e => e.board = (infos i).boardRegId) = t.events := by
  obtain ⟨sent, hown, hshares, hfiles⟩ := h.files hfine hstop hheader hsize
  refine ⟨_, hfiles _, fun e he => ?_, fun i => ?_⟩
  · have hmem := events_registered _ e he
    rw [List.map_ofFn, List.mem_ofFn'] at hmem
    obtain ⟨i, hi⟩ := hmem
    exact ⟨i, hi.symm⟩
  · rw [hshares]
    exact ⟨_, board_blocks hown i _, board_events h.distinct hown i⟩

/-- Two V1730 boards with the ids 1 and 2, and files with a header. -/
def pair : List Daq.Call := [.addBoard {}, .addBoard {}]

def pairInfo (i : ℕ) : BoardInfo :=
  { boardRegId := i + 1, dppType := .pha, modelName := "V1730", nsPerSample := 2 }

def pairBoards : List XdaqBoardDef := [{ boardRegId := 1 }, { boardRegId := 2 }]

def pairConfig : WriterConfig where
  maxFileBytes := 100
  header := bytesOf (DataFileHeader.buildXdaqHeader pairBoards 7)

theorem pairConfig_headed : Headed pairConfig pairBoards 7 :=
  ⟨rfl, by decide, by decide, by decide⟩

def pairDaq : Daq := Daq.history pairConfig {} (pair ++ [.start {}])

def pairFirst : Fin pairDaq.runners.length := ⟨0, by decide +kernel⟩

def pairSecond : Fin pairDaq.runners.length := ⟨1, by decide +kernel⟩

/-- A schedule in which each board has a block, and the second does not fit in the first
part file. -/
def pairSchedule : List (Action pairDaq.runners.length) :=
  let a := pairFirst
  let b := pairSecond
  [.check a, .check b, .read b (some (payload [hit 2])), .read a (some (payload [hit 1, hit 1])),
    .push b false, .push a false, .count a, .count b, .pop, .write {}, .pop, .write {}, .idle {},
    .stop, .stopBoard, .check a, .join, .drainCheck false, .read a none, .release, .stopBoard,
    .check b, .join, .drainCheck true, .release, .stopBoard, .writerReturn, .joinWriter {} {}]

theorem pair_runs : ∃ s, Transition.run (step pairConfig) (ofDaq pairDaq) pairSchedule = some s ∧
    s.stopPc = .stopped ∧ ∀ p ∈ s.loop.writer.parts, p.content.length < 2 ^ 32 := by
  have hmap : (Transition.run (step pairConfig) (ofDaq pairDaq) pairSchedule).map
      (fun s => (s.stopPc, decide (∀ p ∈ s.loop.writer.parts, p.content.length < 2 ^ 32))) =
        some (.stopped, true) := by decide +kernel
  obtain ⟨s, hrun, hs⟩ := Option.map_eq_some_iff.mp hmap
  obtain ⟨hstop, hsize⟩ := Prod.mk.inj hs
  exact ⟨s, hrun, hstop, of_decide_eq_true hsize⟩

theorem pair_fine : ∀ a ∈ pairSchedule, Delivery.Fine a := by
  have hwriting : Turn.Fine {} := ⟨⟨⟨rfl, rfl, rfl, rfl⟩, rfl⟩, rfl⟩
  simp [pairSchedule, Delivery.Fine, hwriting]

theorem pair_sends : ∀ (i : Fin pairDaq.runners.length) block,
    .read i (some block) ∈ pairSchedule → Own (pairInfo i).boardRegId block := by
  intro i block hread
  simp only [pairSchedule, List.mem_cons, reduceCtorEq, Action.read.injEq, Option.some.injEq,
    false_or, List.not_mem_nil, or_false, and_false] at hread
  rcases hread with ⟨rfl, rfl⟩ | ⟨rfl, rfl⟩
  · exact ⟨⟨[hit 2], rfl, by decide⟩, by decide⟩
  · exact ⟨⟨[hit 1, hit 1], rfl, by decide⟩, by decide⟩

theorem pair_recorded {s : Readout pairDaq.runners.length}
    (hrun : Transition.run (step pairConfig) (ofDaq pairDaq) pairSchedule = some s) :
    Recorded pairConfig pair {} (fun i => (pairInfo i).boardRegId) pairSchedule s :=
  ⟨by decide +kernel, by decide +kernel, fun _ _ heq => Fin.ext (Nat.succ_injective heq),
    pair_sends, hrun⟩

theorem files_decode_pair : ∃ s, Transition.run (step pairConfig) (ofDaq pairDaq) pairSchedule =
    some s ∧ ∃ r, decodeBlocks (BoardIsolation.registerAll (List.ofFn fun i : Fin 2 => pairInfo i))
        (s.loop.writer.parts.map Part.content) = .ok r ∧
      (∀ e ∈ r.events, ∃ i : Fin 2, e.board = (pairInfo i).boardRegId) ∧
      ∀ i : Fin 2, ∃ t, decodeBlocks (registerBoardInfo {} (pairInfo i))
          (Delivery.accepted (s.readers i)) = .ok t ∧
        r.events.filter (fun e => e.board = (pairInfo i).boardRegId) = t.events := by
  obtain ⟨s, hrun, hstop, hsize⟩ := pair_runs
  exact ⟨s, hrun, files_decode (pair_recorded hrun) pair_fine hstop pairConfig_headed hsize⟩

end FileDecode
end CaenDaq
