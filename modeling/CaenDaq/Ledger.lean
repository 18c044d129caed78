import CaenDaq.BoardIsolation
import Mathlib.Tactic.Common

/-!
# What a buffer adds up to

The channel aggregates with an accepted header are found from the words of a buffer
and from what kind of board each id stands for, whatever else the decoder remembers.
Each of them is emitted whole or rejected whole; the events apart from their times, the
counters and the clocks after a decode are read off this list.
-/

namespace CaenDaq
namespace Ledger

open Checked Transducer DataFrame AggregateDecoder AggregateStream DecoderRefinement BoardIsolation

structure Kind where
  dpp : Firmware
  name : String
  deriving DecidableEq, Repr

/-- The kind of a board that is decoded, that is registered and supported. -/
def kindOf (d : AggregateDecoder) (board : ℕ) : Option Kind :=
  (d.boards board).bind fun bd =>
    if bd.supported then some ⟨bd.frame.dppType, bd.frame.dgtzName⟩ else none

namespace Kind

def unpacker (k : Kind) : Unpacker := if k.dpp = .pha then phaUnpacker else psdUnpacker

def layout (k : Kind) (form : Word) : DataLayout := resolveLayout k.dpp k.name form

def couplesIn (k : Kind) (words : List Word) : List CoupleSegment :=
  coupleSegments k.dpp k.name (couples (maskOf words)) (words.drop kAggHeaderWords)

end Kind

/-- A channel aggregate whose header was accepted. -/
structure ChannelRecord where
  kind : Kind
  board : ℕ
  couple : ℕ
  form : Word
  payload : List Word
  deriving DecidableEq, Repr

namespace ChannelRecord

def layout (c : ChannelRecord) : DataLayout := c.kind.layout c.form

def nEvents (c : ChannelRecord) : ℕ := c.payload.length / c.layout.evtSize

def events (c : ChannelRecord) : List (List Word) := eventsOf c.layout c.payload

/-- Taken for words that the board never wrote. -/
def rejected (c : ChannelRecord) : Bool :=
  c.kind.unpacker.checksReserved && c.events.any (reservedSet c.layout)

def lacks (c : ChannelRecord) : Bool := lacking c.kind.unpacker c.layout

def emitted (c : ChannelRecord) : List DecodedEvent :=
  if c.rejected then []
  else c.events.map (untimed c.kind.unpacker c.board c.couple c.layout)

def tick (c : ChannelRecord) (clock : ChannelClock) (words : List Word) : ChannelClock :=
  if c.layout.hasTS then
    (clock.unwrap (untimed c.kind.unpacker c.board c.couple c.layout words).timestamp
      (widthOf c.kind.unpacker c.layout words)).2
  else clock

def advance (clock : ChannelClock) (c : ChannelRecord) : ChannelClock :=
  if c.rejected then clock else c.events.foldl c.tick clock

end ChannelRecord

def recordOf (k : Kind) (board : ℕ) : CoupleSegment → Option ChannelRecord
  | .channel couple form payload => some ⟨k, board, couple, form, payload⟩
  | _ => none

/-- Does the aggregate end early here? -/
def isBad : CoupleSegment → Bool
  | .channel _ _ _ => false
  | _ => true

def recordsIn (kinds : ℕ → Option Kind) : Segment → List ChannelRecord
  | .badLength => []
  | .aggregate words =>
    match kinds (boardOf words) with
    | none => []
    | some k => (k.couplesIn words).filterMap (recordOf k (boardOf words))

def abandoned (kinds : ℕ → Option Kind) : Segment → Bool
  | .badLength => false
  | .aggregate words =>
    match kinds (boardOf words) with
    | none => false
    | some k => (k.couplesIn words).any isBad

def recordsOf (kinds : ℕ → Option Kind) (words : List Word) : List ChannelRecord :=
  (segments words).flatMap (recordsIn kinds)

def withoutTime (e : DecodedEvent) : DecodedEvent := { e with timePs := 0 }

section Couple

variable {k : Kind} {s : Bench}

def Is (k : Kind) (s : Bench) : Prop := s.bd.frame.dppType = k.dpp ∧ s.bd.frame.dgtzName = k.name

theorem unpackerOf_kind (h : s.bd.frame.dppType = k.dpp) : unpackerOf s.bd = k.unpacker := by
  rw [unpackerOf, Kind.unpacker, s.bd.isPHA_eq, h]
  by_cases hpha : k.dpp = .pha
  · simp [hpha]
  · simp [hpha]

theorem untimed_timePs (k : Kind) (board couple : ℕ) (layout : DataLayout) (words : List Word) :
    (untimed k.unpacker board couple layout words).timePs = 0 := by
  unfold untimed Kind.unpacker
  split <;> rfl

theorem untimed_channel (k : Kind) (board couple : ℕ) (layout : DataLayout) (words : List Word) :
    (untimed k.unpacker board couple layout words).channel =
      channelOf layout couple (timeWordOf layout words) % 2 ^ 16 := by
  unfold untimed Kind.unpacker
  split <;> rfl

theorem withoutTime_untimed (k : Kind) (board couple : ℕ) (layout : DataLayout)
    (words : List Word) :
    withoutTime (untimed k.unpacker board couple layout words) =
      untimed k.unpacker board couple layout words := by
  rw [withoutTime, ← untimed_timePs k board couple layout words]

theorem setTime_spec (s : Bench) (e : DecodedEvent) (width fineTS fineBits : ℕ) :
    withoutTime (setTime s e width fineTS fineBits).1 = withoutTime e ∧
      (setTime s e width fineTS fineBits).2 =
        s.setClock (s.bd.clock.unwrap e.timestamp width).2 := by
  by_cases hps : s.bd.psPerTick = 0
  · simp [setTime, Bench.setClock, hps]
  · simp [setTime, Bench.setClock, hps, withoutTime]

theorem eventStep_spec (u : Unpacker) (board couple : ℕ) (layout : DataLayout) (s : Bench)
    (words : List Word) :
    (eventStep u board couple layout s words).1.map withoutTime =
        [withoutTime (untimed u board couple layout words)] ∧
      (eventStep u board couple layout s words).2.bd.clock =
        (if layout.hasTS then
          (s.bd.clock.unwrap (untimed u board couple layout words).timestamp
            (widthOf u layout words)).2
        else s.bd.clock) ∧
      (eventStep u board couple layout s words).2.tally =
        { s.tally with
          wave := (eventStep u board couple layout s words).2.tally.wave
          incomplete := s.tally.incomplete + if lacking u layout then 1 else 0 } := by
  have htally : (s.countIncomplete (lacking u layout)).tally =
      { s.tally with incomplete := s.tally.incomplete + if lacking u layout then 1 else 0 } := by
    cases lacking u layout <;> rfl
  have hbd := s.countIncomplete_bd (lacking u layout)
  cases hts : layout.hasTS with
  | true =>
    obtain ⟨hout, hnext⟩ := setTime_spec (s.countIncomplete (lacking u layout))
      (untimed u board couple layout words) (widthOf u layout words)
      (extensionOf u layout words).fineTS (extensionOf u layout words).fineBits
    rw [hbd] at hnext
    simp only [eventStep, timed, hts, if_true, List.map_cons, List.map_nil, hout, hnext,
      Bench.setClock, Bench.setWave, htally, and_self]
  | false =>
    simp only [eventStep, timed, hts, Bool.false_eq_true, if_false, List.map_cons, List.map_nil,
      Bench.setWave, hbd, htally, and_self]

theorem events_spec (c : ChannelRecord) (s : Bench) (events : List (List Word)) :
    let r := run (eventStep c.kind.unpacker c.board c.couple c.layout) s events
    r.1.map withoutTime = events.map (untimed c.kind.unpacker c.board c.couple c.layout) ∧
      r.2.bd.frame = s.bd.frame ∧ r.2.bd.clock = events.foldl c.tick s.bd.clock ∧
      r.2.tally = { s.tally with
        wave := r.2.tally.wave
        incomplete := s.tally.incomplete + if c.lacks then events.length else 0 } := by
  induction events generalizing s with
  | nil => simp
  | cons words events ih =>
    obtain ⟨hout, hclock, htally⟩ :=
      eventStep_spec c.kind.unpacker c.board c.couple c.layout s words
    have hframe := eventStep_frame c.kind.unpacker c.board c.couple c.layout s words
    obtain ⟨hrest, hrestFrame, hrestClock, hrestTally⟩ :=
      ih (eventStep c.kind.unpacker c.board c.couple c.layout s words).2
    rw [withoutTime_untimed] at hout
    refine ⟨?_, ?_, ?_, ?_⟩
    · rw [run_cons, List.map_append, hout, hrest, List.map_cons, List.singleton_append]
    · rw [run_cons, hrestFrame, hframe]
    · rw [run_cons, hrestClock, hclock, List.foldl_cons, ChannelRecord.tick]
    · have hlacks : c.lacks = lacking c.kind.unpacker c.layout := rfl
      rw [run_cons, hrestTally, htally, ← hlacks]
      cases c.lacks with
      | true => simp [Nat.add_assoc, Nat.add_comm]
      | false => simp

@[simp] theorem events_length (c : ChannelRecord) : c.events.length = c.nEvents := by
  simp [ChannelRecord.events, eventsOf, ChannelRecord.nEvents]

theorem emitted_length (c : ChannelRecord) :
    c.emitted.length = if c.rejected then 0 else c.nEvents := by
  unfold ChannelRecord.emitted
  split
  · rfl
  · rw [List.length_map, events_length]

theorem setDataFormat_is (h : Is k s) (form : Word) :
    Is k (s.setDataFormat form) ∧ (s.setDataFormat form).bd.frame.layout = k.layout form := by
  refine ⟨⟨(setDataFormat_dppType _ _).trans h.1, (setDataFormat_dgtzName _ _).trans h.2⟩, ?_⟩
  show (s.bd.frame.setDataFormat form).layout = _
  rw [setDataFormat_layout, h.1, h.2, Kind.layout]

/-- A channel aggregate with an accepted header: its events without their times, the clock
of its board, and what is counted. -/
theorem coupleStep_channel (h : Is k s) (board couple : ℕ) (form : Word) (payload : List Word) :
    let c : ChannelRecord := ⟨k, board, couple, form, payload⟩
    let r := coupleStep k.unpacker board s (.channel couple form payload)
    r.1.map withoutTime = c.emitted ∧ Is k r.2 ∧ r.2.bd.clock = c.advance s.bd.clock ∧
      r.2.tally = { s.tally with
        wave := r.2.tally.wave
        uninitialised := s.tally.uninitialised + if c.rejected then 1 else 0
        uninitialisedEvents := s.tally.uninitialisedEvents + if c.rejected then c.nEvents else 0
        incomplete := s.tally.incomplete + if c.lacks then c.emitted.length else 0 } := by
  intro c r
  obtain ⟨his, hlayout⟩ := setDataFormat_is h form
  have hevents : eventsOf (k.layout form) payload = c.events := rfl
  have hrejected : (k.unpacker.checksReserved && c.events.any (reservedSet (k.layout form))) =
      c.rejected := rfl
  have hr : r = if c.rejected then ([], (s.setDataFormat form).rejected c.events.length) else
      run (eventStep k.unpacker board couple (k.layout form)) (s.setDataFormat form) c.events := by
    simp only [r, coupleStep, hlayout, hevents, hrejected]
  rw [emitted_length]
  by_cases hreject : c.rejected = true
  · rw [hr, if_pos hreject]
    refine ⟨?_, his, ?_, ?_⟩
    · simp only [ChannelRecord.emitted, if_pos hreject, List.map_nil]
    · simp only [ChannelRecord.advance, if_pos hreject]
      rfl
    · simp only [if_pos hreject, events_length, Bench.rejected, Bench.setDataFormat]
      split <;> rfl
  · rw [hr, if_neg hreject]
    obtain ⟨hout, hframe, hclock, htally⟩ := events_spec c (s.setDataFormat form) c.events
    refine ⟨?_, ?_, ?_, ?_⟩
    · simp only [ChannelRecord.emitted, if_neg hreject]
      exact hout
    · exact ⟨(congrArg DataFrame.dppType hframe).trans his.1,
        (congrArg DataFrame.dgtzName hframe).trans his.2⟩
    · simp only [ChannelRecord.advance, if_neg hreject]
      exact hclock
    · simp only [if_neg hreject, events_length] at htally ⊢
      exact htally

def rejectedEvents (c : ChannelRecord) : ℕ := if c.rejected then c.nEvents else 0

def incompleteEvents (c : ChannelRecord) : ℕ := if c.lacks then c.emitted.length else 0

theorem coupleStep_bad (h : Is k s) (board : ℕ) {seg : CoupleSegment} (hbad : isBad seg = true) :
    let r := coupleStep k.unpacker board s seg
    r.1 = [] ∧ Is k r.2 ∧ r.2.bd.clock = s.bd.clock ∧
      r.2.tally = { s.tally with corrupt := s.tally.corrupt + 1 } := by
  cases seg with
  | channel => cases hbad
  | truncated => exact ⟨rfl, h, rfl, rfl⟩
  | malformed form => exact ⟨rfl, (setDataFormat_is h form).1, rfl, rfl⟩

theorem couples_spec (h : Is k s) (board : ℕ) (segs : List CoupleSegment) :
    let records := segs.filterMap (recordOf k board)
    let r := run (coupleStep k.unpacker board) s segs
    r.1.map withoutTime = records.flatMap ChannelRecord.emitted ∧ Is k r.2 ∧
      r.2.bd.clock = records.foldl ChannelRecord.advance s.bd.clock ∧
      r.2.tally = { s.tally with
        wave := r.2.tally.wave
        corrupt := s.tally.corrupt + segs.countP isBad
        uninitialised := s.tally.uninitialised + records.countP ChannelRecord.rejected
        uninitialisedEvents := s.tally.uninitialisedEvents + (records.map rejectedEvents).sum
        incomplete := s.tally.incomplete + (records.map incompleteEvents).sum } := by
  induction segs generalizing s with
  | nil => exact ⟨rfl, h, rfl, rfl⟩
  | cons seg segs ih =>
    by_cases hbad : isBad seg = true
    · obtain ⟨hout, his, hclock, htally⟩ := coupleStep_bad h board hbad
      obtain ⟨hrest, hrestIs, hrestClock, hrestTally⟩ := ih his
      have hnone : recordOf k board seg = none := by
        cases seg with
        | channel => cases hbad
        | truncated => rfl
        | malformed => rfl
      rw [hclock] at hrestClock
      rw [htally] at hrestTally
      simp only [run_cons, hout, List.nil_append, List.filterMap_cons, hnone,
        List.countP_cons, hbad, if_true]
      refine ⟨hrest, hrestIs, hrestClock, ?_⟩
      rw [hrestTally]
      simp only [Tally.mk.injEq, true_and, and_true]
      omega
    · cases seg with
      | truncated => exact absurd rfl hbad
      | malformed => exact absurd rfl hbad
      | channel couple form payload =>
        obtain ⟨hout, his, hclock, htally⟩ := coupleStep_channel h board couple form payload
        obtain ⟨hrest, hrestIs, hrestClock, hrestTally⟩ := ih his
        rw [hclock] at hrestClock
        rw [htally] at hrestTally
        have hsome : recordOf k board (.channel couple form payload) =
            some ⟨k, board, couple, form, payload⟩ := rfl
        simp only [run_cons, List.map_append, hout, List.filterMap_cons, hsome,
          List.flatMap_cons, List.foldl_cons, List.countP_cons, hbad, List.map_cons, List.sum_cons]
        refine ⟨by rw [hrest], hrestIs, hrestClock, ?_⟩
        rw [hrestTally]
        simp only [Tally.mk.injEq, true_and, Bool.false_eq_true, if_false, rejectedEvents,
          incompleteEvents]
        omega

end Couple

/-- The clock of a board; a board that is not registered has none that moves. -/
def clockOf (d : AggregateDecoder) (board : ℕ) : ChannelClock :=
  match d.boards board with
  | some bd => bd.clock
  | none => {}

theorem countP_isBad (dpp : Firmware) (name : String) (cs : List ℕ) (words : List Word) :
    (coupleSegments dpp name cs words).countP isBad =
      if (coupleSegments dpp name cs words).any isBad then 1 else 0 := by
  induction cs generalizing words with
  | nil => simp [coupleSegments]
  | cons couple cs ih =>
    rcases words with _ | ⟨size, _ | ⟨form, rest⟩⟩
    · simp [coupleSegments, isBad]
    · simp [coupleSegments, isBad]
    · simp only [coupleSegments]
      split
      · simp [isBad]
      · simp only [List.countP_cons, List.any_cons, isBad, Bool.false_or, Bool.false_eq_true,
          if_false, Nat.add_zero]
        exact ih _

theorem recordOf_board {k : Kind} {board : ℕ} {segs : List CoupleSegment} {c : ChannelRecord}
    (hc : c ∈ segs.filterMap (recordOf k board)) : c.kind = k ∧ c.board = board := by
  obtain ⟨seg, _, hseg⟩ := List.mem_filterMap.mp hc
  cases seg with
  | truncated => cases hseg
  | malformed => cases hseg
  | channel couple form payload =>
    cases hseg
    exact ⟨rfl, rfl⟩

/-- Sync words with a length that is too short, and aggregates abandoned part-way. -/
def corruptions (kinds : ℕ → Option Kind) (seg : Segment) : ℕ :=
  if seg = .badLength ∨ abandoned kinds seg then 1 else 0

theorem kindOf_update (d : AggregateDecoder) (board : ℕ) {bd bd' : BoardDec} (tally : Tally)
    (hbd : d.boards board = some bd) (hdpp : bd'.frame.dppType = bd.frame.dppType)
    (hname : bd'.frame.dgtzName = bd.frame.dgtzName) :
    kindOf { boards := Function.update d.boards board (some bd'), tally := tally } = kindOf d := by
  funext b
  by_cases hb : b = board
  · subst hb
    have hsup : bd'.supported = bd.supported := by
      rw [bd'.supported_eq, bd.supported_eq, isSupported, isSupported, hdpp, hname]
    simp only [kindOf, Function.update_self, hbd, Option.bind_some, hsup, hdpp, hname]
  · simp only [kindOf, Function.update_of_ne hb]

/-- What a decoder does with an aggregate: nothing, or the run over its couple segments. -/
theorem segmentStep_aggregate (d : AggregateDecoder) (words : List Word) :
    (kindOf d (boardOf words) = none ∧ segmentStep d (.aggregate words) =
      ([], { d with tally := countFail d.tally (failOf words) })) ∨
    ∃ bd k, d.boards (boardOf words) = some bd ∧ kindOf d (boardOf words) = some k ∧
      Is k ⟨bd, countFail d.tally (failOf words)⟩ ∧
      segmentStep d (.aggregate words) =
        let r := run (coupleStep k.unpacker (boardOf words))
          ⟨bd, countFail d.tally (failOf words)⟩ (k.couplesIn words)
        (r.1, { boards := Function.update d.boards (boardOf words) (some r.2.bd)
                tally := r.2.tally }) := by
  cases hbd : d.boards (boardOf words) with
  | none => exact Or.inl ⟨by simp [kindOf, hbd], by simp only [segmentStep, hbd]⟩
  | some bd =>
    by_cases hsup : bd.supported = true
    · refine Or.inr ⟨bd, ⟨bd.frame.dppType, bd.frame.dgtzName⟩, rfl, by simp [kindOf, hbd, hsup],
        ⟨rfl, rfl⟩, ?_⟩
      have hunpacker : unpackerOf bd = Kind.unpacker ⟨bd.frame.dppType, bd.frame.dgtzName⟩ :=
        @unpackerOf_kind ⟨bd.frame.dppType, bd.frame.dgtzName⟩
          ⟨bd, countFail d.tally (failOf words)⟩ rfl
      simp only [segmentStep, hbd, hsup, if_true, hunpacker]
      rfl
    · exact Or.inl ⟨by simp [kindOf, hbd, hsup], by
        simp only [segmentStep, hbd, hsup, Bool.false_eq_true, if_false]⟩

/-- One segment: its events without their times, the clocks, what is counted, and that the
boards stay what they are. -/
theorem segmentStep_spec (d : AggregateDecoder) (seg : Segment) :
    let records := recordsIn (kindOf d) seg
    let r := segmentStep d seg
    r.1.map withoutTime = records.flatMap ChannelRecord.emitted ∧ kindOf r.2 = kindOf d ∧
      (∀ b, clockOf r.2 b =
        (records.filter fun c => c.board = b).foldl ChannelRecord.advance (clockOf d b)) ∧
      r.2.tally = { d.tally with
        wave := r.2.tally.wave
        boardFail := r.2.tally.boardFail
        corrupt := d.tally.corrupt + corruptions (kindOf d) seg
        uninitialised := d.tally.uninitialised + records.countP ChannelRecord.rejected
        uninitialisedEvents := d.tally.uninitialisedEvents + (records.map rejectedEvents).sum
        incomplete := d.tally.incomplete + (records.map incompleteEvents).sum } := by
  cases seg with
  | badLength => exact ⟨rfl, rfl, fun _ => rfl, by simp [segmentStep, recordsIn, corruptions]⟩
  | aggregate words =>
    rcases segmentStep_aggregate d words with ⟨hkind, hstep⟩ | ⟨bd, k, hbd, hkind, his, hstep⟩
    · simp only [hstep, recordsIn, hkind]
      refine ⟨rfl, rfl, fun _ => rfl, ?_⟩
      simp [corruptions, abandoned, hkind, countFail]
    · obtain ⟨hout, hkeep, hclock, htally⟩ := couples_spec his (boardOf words) (k.couplesIn words)
      have hfirst : bd.frame.dppType = k.dpp ∧ bd.frame.dgtzName = k.name := his
      simp only [hstep, recordsIn, hkind]
      refine ⟨hout, kindOf_update d _ _ hbd (hkeep.1.trans hfirst.1.symm)
        (hkeep.2.trans hfirst.2.symm), ?_, ?_⟩
      · intro b
        by_cases hb : b = boardOf words
        · subst hb
          rw [List.filter_eq_self.mpr fun c hc => decide_eq_true (recordOf_board hc).2]
          simp only [clockOf, Function.update_self, hbd, hclock]
        · have hnone : ((k.couplesIn words).filterMap (recordOf k (boardOf words))).filter
              (fun c => c.board = b) = [] := by
            refine List.filter_eq_nil_iff.mpr fun c hc hcb => hb ?_
            rw [← (recordOf_board hc).2, of_decide_eq_true hcb]
          rw [hnone, List.foldl_nil]
          simp only [clockOf, Function.update_of_ne hb]
      · have hbad : (k.couplesIn words).countP isBad = corruptions (kindOf d) (.aggregate words) := by
          rw [Kind.couplesIn, countP_isBad]
          simp [corruptions, abandoned, hkind, Kind.couplesIn]
        rw [htally, hbad]
        rfl

/-- A whole buffer. -/
theorem run_spec (d : AggregateDecoder) (segs : List Segment) :
    let records := segs.flatMap (recordsIn (kindOf d))
    let r := run segmentStep d segs
    r.1.map withoutTime = records.flatMap ChannelRecord.emitted ∧ kindOf r.2 = kindOf d ∧
      (∀ b, clockOf r.2 b =
        (records.filter fun c => c.board = b).foldl ChannelRecord.advance (clockOf d b)) ∧
      r.2.tally = { d.tally with
        wave := r.2.tally.wave
        boardFail := r.2.tally.boardFail
        corrupt := d.tally.corrupt + (segs.map (corruptions (kindOf d))).sum
        uninitialised := d.tally.uninitialised + records.countP ChannelRecord.rejected
        uninitialisedEvents := d.tally.uninitialisedEvents + (records.map rejectedEvents).sum
        incomplete := d.tally.incomplete + (records.map incompleteEvents).sum } := by
  induction segs generalizing d with
  | nil => exact ⟨rfl, rfl, fun _ => rfl, rfl⟩
  | cons seg segs ih =>
    obtain ⟨hout, hkinds, hclock, htally⟩ := segmentStep_spec d seg
    obtain ⟨hrest, hrestKinds, hrestClock, hrestTally⟩ := ih (segmentStep d seg).2
    rw [hkinds] at hrest hrestKinds hrestClock hrestTally
    refine ⟨?_, hrestKinds, ?_, ?_⟩
    · rw [run_cons, List.map_append, hout, hrest, List.flatMap_cons, List.flatMap_append]
    · intro b
      rw [run_cons, hrestClock, hclock, List.flatMap_cons, List.filter_append, List.foldl_append]
    · rw [run_cons, hrestTally, htally]
      simp only [List.flatMap_cons, List.countP_append, List.map_append, List.sum_append,
        List.map_cons, List.sum_cons, Tally.mk.injEq, true_and]
      omega

/-- The events handed out for a channel aggregate: as emitted, and at time zero if there is
no time word. -/
def Becomes (c : ChannelRecord) (es : List DecodedEvent) : Prop :=
  es.map withoutTime = c.emitted ∧ (c.layout.hasTS = false → ∀ e ∈ es, e.timePs = 0)

theorem eventStep_untimed {k : Kind} {layout : DataLayout} (hts : layout.hasTS = false)
    (board couple : ℕ) (s : Bench) (words : List Word) :
    ∀ e ∈ (eventStep k.unpacker board couple layout s words).1, e.timePs = 0 := by
  intro e he
  obtain rfl := List.mem_singleton.mp he
  simp only [timed, hts, Bool.false_eq_true, if_false]
  exact untimed_timePs k board couple layout words

theorem coupleStep_becomes {k : Kind} {s : Bench} (h : Is k s) (board couple : ℕ) (form : Word)
    (payload : List Word) :
    Becomes ⟨k, board, couple, form, payload⟩
      (coupleStep k.unpacker board s (.channel couple form payload)).1 := by
  refine ⟨(coupleStep_channel h board couple form payload).1, fun hts => ?_⟩
  have hlayout : (s.setDataFormat form).bd.frame.layout = k.layout form := (setDataFormat_is h form).2
  have hts : (k.layout form).hasTS = false := hts
  simp only [coupleStep, hlayout]
  split
  · simp
  · exact run_outputs (fun e : DecodedEvent => e.timePs = 0)
      (fun s words _ => eventStep_untimed hts board couple s words) _

/-- The events of a buffer fall into those of its channel aggregates, in order. -/
theorem run_becomes (d : AggregateDecoder) (segs : List Segment) :
    ∃ ess, (run segmentStep d segs).1 = ess.flatten ∧
      List.Forall₂ Becomes (segs.flatMap (recordsIn (kindOf d))) ess := by
  refine run_pieces (fun e => kindOf e = kindOf d) (recordsIn (kindOf d)) Becomes
    (fun e seg _ he => ⟨?_, (segmentStep_spec e seg).2.1.trans he⟩) d rfl
  rw [← he]
  cases seg with
  | badLength => exact ⟨[], rfl, List.Forall₂.nil⟩
  | aggregate words =>
    rcases segmentStep_aggregate e words with ⟨hkind, hstep⟩ | ⟨bd, k, _, hkind, his, hstep⟩
    · simp only [hstep, recordsIn, hkind]
      exact ⟨[], rfl, List.Forall₂.nil⟩
    · simp only [hstep, recordsIn, hkind, List.filterMap_eq_flatMap_toList]
      refine run_pieces (Is k) (fun seg => (recordOf k (boardOf words) seg).toList) Becomes
        (fun s seg _ hs => ?_) _ his
      by_cases hbad : isBad seg = true
      · obtain ⟨hout, hnext, _⟩ := coupleStep_bad hs (boardOf words) hbad
        cases seg with
        | channel => cases hbad
        | truncated => exact ⟨⟨[], hout, List.Forall₂.nil⟩, hnext⟩
        | malformed => exact ⟨⟨[], hout, List.Forall₂.nil⟩, hnext⟩
      · cases seg with
        | truncated => exact absurd rfl hbad
        | malformed => exact absurd rfl hbad
        | channel couple form payload =>
          refine ⟨⟨[_], (List.append_nil _).symm, ?_⟩,
            (coupleStep_channel hs (boardOf words) couple form payload).2.1⟩
          exact List.Forall₂.cons (coupleStep_becomes hs _ couple form payload) List.Forall₂.nil

end Ledger
end CaenDaq
