import CaenDaq.BoardStream

/-!
# Boards that share one stream

The trace buffer and the counters are shared by all boards, the clock and the cached
layout are not. An event depends on its own words and on its board's clock alone, so
a board's events are those of a decoder that knows no other board.
-/

namespace CaenDaq
namespace BoardIsolation

open Checked Transducer DataFrame AggregateDecoder AggregateStream DecoderRefinement BoardStream

theorem timed_of_bd (u : Unpacker) (layout : DataLayout) {s t : Bench} (h : s.bd = t.bd)
    (words : List Word) (e : DecodedEvent) :
    (timed u layout s words e).1 = (timed u layout t words e).1 ∧
      (timed u layout s words e).2.bd = (timed u layout t words e).2.bd := by
  obtain ⟨bd, tally⟩ := s
  obtain ⟨bd', tally'⟩ := t
  obtain rfl : bd = bd' := h
  by_cases hts : layout.hasTS = true
  · by_cases hps : bd.psPerTick = 0
    · simp only [timed, setTime, Bench.setClock, hts, hps, if_true, and_self]
    · simp only [timed, setTime, Bench.setClock, hts, hps, if_true, if_false, and_self]
  · simp only [timed, hts, Bool.false_eq_true, if_false, and_self]

theorem eventStep_of_bd (u : Unpacker) (board couple : ℕ) (layout : DataLayout) {s t : Bench}
    (h : s.bd = t.bd) (words : List Word) :
    (eventStep u board couple layout s words).1 = (eventStep u board couple layout t words).1 ∧
      (eventStep u board couple layout s words).2.bd =
        (eventStep u board couple layout t words).2.bd := by
  have hbd : (s.countIncomplete (lacking u layout)).bd = (t.countIncomplete (lacking u layout)).bd := by
    rw [Bench.countIncomplete_bd, Bench.countIncomplete_bd, h]
  obtain ⟨hev, hnext⟩ := timed_of_bd u layout hbd words (untimed u board couple layout words)
  exact ⟨congrArg (fun e => [e]) hev, hnext⟩

theorem coupleStep_of_bd (u : Unpacker) (board : ℕ) {s t : Bench} (h : s.bd = t.bd)
    (seg : CoupleSegment) :
    (coupleStep u board s seg).1 = (coupleStep u board t seg).1 ∧
      (coupleStep u board s seg).2.bd = (coupleStep u board t seg).2.bd := by
  cases seg with
  | truncated => exact ⟨rfl, h⟩
  | malformed form =>
    refine ⟨rfl, ?_⟩
    simp only [coupleStep, Bench.corrupted, Bench.setDataFormat, h]
  | channel couple form payload =>
    have hset : (s.setDataFormat form).bd = (t.setDataFormat form).bd := by
      simp only [Bench.setDataFormat, h]
    simp only [coupleStep, hset]
    split
    · exact ⟨rfl, hset⟩
    · exact run_bisim (fun s t : Bench => s.bd = t.bd)
        (fun s t words _ hst => eventStep_of_bd u board couple _ hst words) _ _ hset

section Outputs

variable {Q : DecodedEvent → Prop} (htime : ∀ e ps, Q e → Q { e with timePs := ps })
include htime

theorem eventStep_outputs {u : Unpacker} {board couple : ℕ} {layout : DataLayout}
    {words : List Word} (h : Q (untimed u board couple layout words)) (s : Bench) :
    ∀ e ∈ (eventStep u board couple layout s words).1, Q e := by
  intro e he
  obtain rfl := List.mem_singleton.mp he
  simp only [timed, setTime]
  split
  · split
    · exact h
    · exact htime _ _ h
  · exact h

theorem coupleStep_outputs {u : Unpacker} {board : ℕ}
    (h : ∀ couple layout words, Q (untimed u board couple layout words)) (s : Bench)
    (seg : CoupleSegment) : ∀ e ∈ (coupleStep u board s seg).1, Q e := by
  cases seg with
  | truncated => simp [coupleStep]
  | malformed form => simp [coupleStep]
  | channel couple form payload =>
    simp only [coupleStep]
    split
    · simp
    · exact run_outputs Q (fun s words _ => eventStep_outputs htime (h couple _ words) s) _

theorem segmentStep_outputs
    (h : ∀ bd board couple layout words, Q (untimed (unpackerOf bd) board couple layout words))
    (d : AggregateDecoder) (seg : Segment) : ∀ e ∈ (segmentStep d seg).1, Q e := by
  cases seg with
  | badLength => simp [segmentStep]
  | aggregate words =>
    simp only [segmentStep]
    split
    · rename_i bd hbd
      split
      · exact run_outputs Q (fun s seg _ => coupleStep_outputs htime (h bd _) s seg) _
      · simp
    · simp

end Outputs

/-- The event carries the id of the aggregate it comes from, and a 16-bit channel. -/
def IdsOf (board : ℕ) (e : DecodedEvent) : Prop := e.board = board % 2 ^ 16 ∧ e.channel < 2 ^ 16

theorem coupleStep_ids (bd : BoardDec) (board : ℕ) (s : Bench) (seg : CoupleSegment) :
    ∀ e ∈ (coupleStep (unpackerOf bd) board s seg).1, IdsOf board e := by
  refine coupleStep_outputs (fun e ps h => h) (fun couple layout words => ?_) s seg
  unfold untimed unpackerOf
  split
  · exact ⟨rfl, Nat.mod_lt _ (by decide)⟩
  · exact ⟨rfl, Nat.mod_lt _ (by decide)⟩

theorem boardOf_lt (words : List Word) : boardOf words < 32 := by
  have h := (headWord words).isLt
  unfold boardOf
  omega

def boardOfSegment : Segment → Option ℕ
  | .badLength => none
  | .aggregate words => some (boardOf words)

theorem segmentStep_ids (d : AggregateDecoder) (seg : Segment) :
    ∀ e ∈ (segmentStep d seg).1, boardOfSegment seg = some e.board ∧
      d.boards e.board ≠ none ∧ e.channel < 2 ^ 16 := by
  cases seg with
  | badLength => simp [segmentStep]
  | aggregate words =>
    have hmod : boardOf words % 2 ^ 16 = boardOf words :=
      Nat.mod_eq_of_lt (lt_trans (boardOf_lt words) (by decide))
    simp only [segmentStep]
    split
    · rename_i bd hbd
      split
      · intro e he
        obtain ⟨hboard, hchannel⟩ := run_outputs (IdsOf (boardOf words))
          (fun s seg _ => coupleStep_ids bd (boardOf words) s seg) _ e he
        rw [hmod] at hboard
        rw [boardOfSegment, hboard, hbd]
        exact ⟨rfl, Option.some_ne_none bd, hchannel⟩
      · simp
    · simp

theorem segmentStep_board (d : AggregateDecoder) (seg : Segment) :
    ∀ e ∈ (segmentStep d seg).1, boardOfSegment seg = some e.board :=
  fun e he => (segmentStep_ids d seg e he).1

theorem segmentStep_none (d : AggregateDecoder) (seg : Segment) {b : ℕ} (h : d.boards b = none) :
    (segmentStep d seg).2.boards b = none := by
  cases seg with
  | badLength => exact h
  | aggregate words =>
    simp only [segmentStep]
    split
    · rename_i bd hbd
      have hne : b ≠ boardOf words := by
        intro hb
        rw [hb, hbd] at h
        exact Option.some_ne_none bd h
      split
      · rw [← h]
        exact Function.update_of_ne hne _ _
      · exact h
    · exact h

theorem segmentStep_other (d : AggregateDecoder) (seg : Segment) {b : ℕ}
    (h : boardOfSegment seg ≠ some b) : (segmentStep d seg).2.boards b = d.boards b := by
  cases seg with
  | badLength => rfl
  | aggregate words =>
    have hne : b ≠ boardOf words := fun hb => h (by rw [boardOfSegment, hb])
    simp only [segmentStep]
    split
    · split
      · exact Function.update_of_ne hne _ _
      · rfl
    · rfl

theorem segmentStep_same {d d' : AggregateDecoder} (seg : Segment) {b : ℕ}
    (h : boardOfSegment seg = some b) (hd : d.boards b = d'.boards b) :
    (segmentStep d seg).1 = (segmentStep d' seg).1 ∧
      (segmentStep d seg).2.boards b = (segmentStep d' seg).2.boards b := by
  cases seg with
  | badLength => cases h
  | aggregate words =>
    obtain rfl : boardOf words = b := Option.some.inj h
    simp only [segmentStep, ← hd]
    cases hb : d.boards (boardOf words) with
    | none => exact ⟨rfl, by rw [hb, ← hd, hb]⟩
    | some bd =>
      by_cases hsup : bd.supported = true
      · obtain ⟨hout, hnext⟩ := run_bisim (fun s t : Bench => s.bd = t.bd)
          (fun s t seg (_ : seg ∈ couplesOf bd words) hst =>
            coupleStep_of_bd (unpackerOf bd) (boardOf words) hst seg)
          ⟨bd, countFail d.tally (failOf words)⟩ ⟨bd, countFail d'.tally (failOf words)⟩ rfl
        simp only [hsup, if_true, Function.update_self]
        exact ⟨hout, congrArg some hnext⟩
      · simp only [hsup, Bool.false_eq_true, if_false]
        exact ⟨trivial, hd⟩

/-- Over a whole run, the events of a board are those of any decoder that agrees on the
board and is fed its segments alone. -/
theorem run_board {d d' : AggregateDecoder} {b : ℕ} (hd : d.boards b = d'.boards b)
    (segs : List Segment) :
    (run segmentStep d segs).1.filter (fun e => e.board = b) =
      (run segmentStep d' (segs.filter fun s => boardOfSegment s = some b)).1 := by
  have hproject := (run_project (fun d d' : AggregateDecoder => d.boards b = d'.boards b)
    (fun s => decide (boardOfSegment s = some b)) (fun e : DecodedEvent => decide (e.board = b))
    (fun s t x hst hx => by
      obtain ⟨hout, hnext⟩ := segmentStep_same x (of_decide_eq_true hx) hst
      rw [hout]
      exact ⟨rfl, hnext⟩)
    (fun s t x hst hx => by
      refine ⟨?_, (segmentStep_other s x (of_decide_eq_false hx)).trans hst⟩
      apply List.filter_eq_nil_iff.mpr
      intro e he hb
      have hseg := segmentStep_board s x e he
      exact of_decide_eq_false hx (by rw [hseg, of_decide_eq_true hb]))
    d d' hd segs).1
  rw [hproject]
  apply List.filter_eq_self.mpr
  intro e he
  have hall := run_outputs (fun e : DecodedEvent => e.board = b)
    (fun s x hx e he => by
      have hseg := segmentStep_board s x e he
      have hkeep := of_decide_eq_true (List.mem_filter.mp hx).2
      rw [hkeep] at hseg
      exact (Option.some.inj hseg).symm) d' e he
  exact decide_eq_true hall

def registerAll (boards : List BoardInfo) : AggregateDecoder := boards.foldl registerBoardInfo {}

theorem registerBoardInfo_boards (d : AggregateDecoder) (bi : BoardInfo) (b : ℕ) :
    (registerBoardInfo d bi).boards b =
      if b = bi.boardRegId then some (newBoard bi.dppType bi.modelName (timeStampPs bi))
      else d.boards b := by
  simp only [registerBoardInfo, registerBoard, Function.update_apply]

theorem foldl_register_other (boards : List BoardInfo) (d : AggregateDecoder) {b : ℕ}
    (h : b ∉ boards.map BoardInfo.boardRegId) :
    (boards.foldl registerBoardInfo d).boards b = d.boards b := by
  induction boards generalizing d with
  | nil => rfl
  | cons bi boards ih =>
    rw [List.map_cons, List.mem_cons, not_or] at h
    rw [List.foldl_cons, ih _ h.2, registerBoardInfo_boards, if_neg h.1]

theorem registerAll_boards {boards : List BoardInfo} (hids : (boards.map BoardInfo.boardRegId).Nodup)
    {bi : BoardInfo} (hbi : bi ∈ boards) :
    (registerAll boards).boards bi.boardRegId = (registerAll [bi]).boards bi.boardRegId := by
  obtain ⟨before, after, rfl⟩ := List.append_of_mem hbi
  rw [List.map_append, List.map_cons, List.nodup_append] at hids
  have hafter : bi.boardRegId ∉ after.map BoardInfo.boardRegId := (List.nodup_cons.mp hids.2.1).1
  unfold registerAll
  rw [List.foldl_append, List.foldl_cons, foldl_register_other after _ hafter, List.foldl_cons,
    List.foldl_nil, registerBoardInfo_boards, registerBoardInfo_boards, if_pos rfl, if_pos rfl]

def ofBoard (b : ℕ) (as : List BoardAggregate) : List BoardAggregate :=
  as.filter fun a => boardOf a.words = b

theorem segments_ofBoard (b : ℕ) (as : List BoardAggregate) :
    segments (stream (ofBoard b as)) =
      (segments (stream as)).filter fun s => boardOfSegment s = some b := by
  rw [segments_stream_only, segments_stream_only, List.filter_map, ofBoard]
  congr 1
  apply List.filter_congr
  intro a _
  simp only [Function.comp, boardOfSegment, Option.some.injEq]

theorem decodeBlocks_payload (d : AggregateDecoder) {blocks : List (List BoardAggregate)}
    (h : ∀ as ∈ blocks, (payload as).length < 2 ^ 32) :
    decodeBlocks d (blocks.map payload) = .ok (decoded (decodeWords d (stream blocks.flatten))) := by
  have hall : ∀ block ∈ blocks.map payload, block.length < 2 ^ 32 := by
    intro block hm
    obtain ⟨as, has, rfl⟩ := List.mem_map.mp hm
    exact h as has
  have hwords : (blocks.map payload).map wordsOf = blocks.map stream := by
    rw [List.map_map]
    exact List.map_congr_left fun as _ => wordsOf_payload as
  rw [decodeBlocks_ok d hall, hwords, run_blocks]

/-- In a stream of several boards, the events of each are those of a decoder with only
that board registered on its aggregates alone, however either stream is cut in blocks. -/
theorem board_events_isolated {boards : List BoardInfo}
    (hids : (boards.map BoardInfo.boardRegId).Nodup) {bi : BoardInfo} (hbi : bi ∈ boards)
    {blocks blocks' : List (List BoardAggregate)}
    (hsize : ∀ as ∈ blocks, (payload as).length < 2 ^ 32)
    (hsize' : ∀ as ∈ blocks', (payload as).length < 2 ^ 32)
    (hcut : blocks'.flatten = ofBoard bi.boardRegId blocks.flatten) :
    ∃ r r', decodeBlocks (registerAll boards) (blocks.map payload) = .ok r ∧
      decodeBlocks (registerAll [bi]) (blocks'.map payload) = .ok r' ∧
      r.events.filter (fun e => e.board = bi.boardRegId) = r'.events := by
  refine ⟨_, _, decodeBlocks_payload _ hsize, decodeBlocks_payload _ hsize', ?_⟩
  have hrun := run_board (registerAll_boards hids hbi) (segments (stream blocks.flatten))
  rw [hcut]
  show (run segmentStep (registerAll boards) (segments (stream blocks.flatten))).1.filter _ =
    (run segmentStep (registerAll [bi]) (segments (stream (ofBoard bi.boardRegId _)))).1
  rw [segments_ofBoard]
  exact hrun

def v1730 (id : ℕ) : BoardInfo :=
  { boardRegId := id, dppType := .pha, modelName := "V1730", nsPerSample := 2 }

/-- Two events of the first board around one of the second. -/
theorem board_events_isolated_two :
    ∃ r r', decodeBlocks (registerAll [v1730 1, v1730 2])
        ([[hit 1, hit 2], [hit 1]].map payload) = .ok r ∧
      decodeBlocks (registerAll [v1730 2]) ([[hit 2]].map payload) = .ok r' ∧
      r.events.filter (fun e => e.board = 2) = r'.events ∧ r.events.length = 3 ∧
      r'.events.length = 1 := by
  obtain ⟨r, r', hr, hr', hsame⟩ := @board_events_isolated [v1730 1, v1730 2] (by decide)
    (v1730 2) (by decide) [[hit 1, hit 2], [hit 1]] [[hit 2]] (by decide) (by decide) rfl
  have hthree : (decodeBlocks (registerAll [v1730 1, v1730 2])
      ([[hit 1, hit 2], [hit 1]].map payload)).map (·.events.length) = .ok 3 := by decide +kernel
  have hone : (decodeBlocks (registerAll [v1730 2]) ([[hit 2]].map payload)).map
      (·.events.length) = .ok 1 := by decide +kernel
  rw [hr] at hthree
  rw [hr'] at hone
  exact ⟨r, r', hr, hr', hsame, Except.ok.inj hthree, Except.ok.inj hone⟩

end BoardIsolation
end CaenDaq
