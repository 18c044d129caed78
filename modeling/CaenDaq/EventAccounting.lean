import CaenDaq.Ledger

/-!
# Every event that is claimed is accounted for

What `decode` returns, hands out and counts, against the channel aggregates of the
buffer: each is emitted or rejected as a whole, the words of the next one start where
its own length says in either case, and only an x724-type DPP-PHA board's are rejected.
-/

namespace CaenDaq
namespace EventAccounting

open Checked Transducer DataFrame AggregateDecoder AggregateStream DecoderRefinement Ledger

def wordsUsed : CoupleSegment → ℕ
  | .channel _ _ payload => payload.length + 2
  | _ => 0

/-- A channel aggregate stands behind those before it, whatever became of them, and its
own size field gives its length. -/
theorem coupleSegments_position {dpp : Firmware} {name : String} {cs : List ℕ}
    {words : List Word} {before after : List CoupleSegment} {couple : ℕ} {form : Word}
    {payload : List Word}
    (h : coupleSegments dpp name cs words = before ++ .channel couple form payload :: after) :
    couple ∈ cs ∧ ∃ size rest,
      words.drop (before.map wordsUsed).sum = size :: form :: (payload ++ rest) ∧
        extractBits size (format (tables dpp name) .Size (0, 31)) = payload.length + 2 := by
  have hmem : .channel couple form payload ∈ coupleSegments dpp name cs words := by
    rw [h]
    simp
  induction cs generalizing words before with
  | nil =>
    rw [coupleSegments] at hmem
    exact absurd hmem List.not_mem_nil
  | cons c cs ih =>
    rcases words with _ | ⟨size, _ | ⟨form', rest⟩⟩
    · simp [coupleSegments] at hmem
    · simp [coupleSegments] at hmem
    · simp only [coupleSegments] at h hmem
      split at h
      · rename_i hbad
        rw [if_pos hbad] at hmem
        simp at hmem
      · rename_i hgood
        cases before with
        | nil =>
          cases (List.cons.inj h).1
          refine ⟨List.mem_cons_self, size,
            rest.drop (extractBits size (format (tables dpp name) .Size (0, 31)) - 2), ?_, ?_⟩
          · rw [List.map_nil, List.sum_nil, List.drop_zero, List.take_append_drop]
          · rw [List.length_take]
            omega
        | cons seg before =>
          obtain ⟨hhead, htail⟩ := List.cons.inj h
          obtain ⟨hin, size', rest', hdrop, hsize⟩ := ih htail (by rw [htail]; simp)
          have hused : wordsUsed seg =
              extractBits size (format (tables dpp name) .Size (0, 31)) - 2 + 2 := by
            rw [← hhead, wordsUsed, List.length_take]
            omega
          refine ⟨List.mem_cons_of_mem _ hin, size', rest', ?_, hsize⟩
          rw [← hdrop, List.map_cons, List.sum_cons, hused, List.drop_drop, Nat.add_right_comm]
          rfl

/-- The reserved bits of a time word and of an energy word. -/
def kReservedTime : Word := 0x80000000

def kReservedEnergy : Word := 0xF3000000

/-- Of the channel aggregates whose events have both words, those are rejected that an
x724-type DPP-PHA board sent with a reserved bit set in some event's time or energy word. -/
theorem rejected_iff (c : ChannelRecord) (hts : c.layout.hasTS = true)
    (hdata : c.kind.unpacker.hasData c.layout = true) :
    c.rejected = true ↔ c.kind.dpp = .pha ∧ isX724Family c.kind.name = true ∧
      ∃ words ∈ c.events, timeWordOf c.layout words &&& kReservedTime ≠ 0 ∨
        dataWordOf c.kind.unpacker c.layout words &&& kReservedEnergy ≠ 0 := by
  have htime : ∀ words, timeWordOf c.layout words = words.getD 0 0 := by
    intro words
    rw [timeWordOf, if_pos hts]
  have hlast : ∀ words, dataWordOf c.kind.unpacker c.layout words =
      words.getD (c.layout.evtSize - 1) 0 := by
    intro words
    rw [dataWordOf, if_pos hdata]
  have hchecks : c.kind.unpacker.checksReserved = decide (c.kind.dpp = .pha) := by
    unfold Kind.unpacker
    split <;> simp [phaUnpacker, psdUnpacker, *]
  have hresTS : c.layout.resTS =
      if isX724Family c.kind.name && c.kind.dpp = .pha then kReservedTime else 0 := rfl
  have hresEnergy : c.layout.resEnergy =
      if isX724Family c.kind.name && c.kind.dpp = .pha then kReservedEnergy else 0 := rfl
  simp only [htime, hlast, ChannelRecord.rejected, hchecks, Bool.and_eq_true, decide_eq_true_eq,
    List.any_eq_true]
  constructor
  · rintro ⟨hpha, words, hin, hset⟩
    cases hx : isX724Family c.kind.name with
    | true =>
      simp only [reservedSet, hresTS, hresEnergy, hx, hpha, decide_true, Bool.and_self, if_true,
        Bool.or_eq_true, decide_eq_true_eq] at hset
      exact ⟨hpha, rfl, words, hin, hset⟩
    | false =>
      simp [reservedSet, hresTS, hresEnergy, hx] at hset
  · rintro ⟨hpha, hx, words, hin, hset⟩
    refine ⟨hpha, words, hin, ?_⟩
    simp only [reservedSet, hresTS, hresEnergy, hx, hpha, decide_true, Bool.and_self, if_true,
      Bool.or_eq_true, decide_eq_true_eq]
    exact hset

/-- No channel number reaches `kMaxChannels`: the branch of the unpackers that would drop
an event without a trace is never taken. -/
theorem emitted_channel {c : ChannelRecord} (hcouple : c.couple < 8) :
    ∀ e ∈ c.emitted, e.channel < kMaxChannels := by
  intro e he
  unfold ChannelRecord.emitted at he
  split at he
  · exact absurd he List.not_mem_nil
  · obtain ⟨words, _, rfl⟩ := List.mem_map.mp he
    have hlt := channelOf_lt c.layout hcouple (timeWordOf c.layout words)
    have hmod := Nat.mod_le (channelOf c.layout c.couple (timeWordOf c.layout words)) (2 ^ 16)
    rw [untimed_channel]
    exact lt_of_le_of_lt hmod hlt

theorem recordsOf_couple {kinds : ℕ → Option Kind} {words : List Word} {c : ChannelRecord}
    (hc : c ∈ recordsOf kinds words) : c.couple < 8 := by
  obtain ⟨seg, _, hin⟩ := List.mem_flatMap.mp hc
  cases seg with
  | badLength => exact absurd hin List.not_mem_nil
  | aggregate agg =>
    simp only [recordsIn] at hin
    split at hin
    · exact absurd hin List.not_mem_nil
    · rename_i k _
      obtain ⟨seg, hseg, hrecord⟩ := List.mem_filterMap.mp hin
      cases seg with
      | truncated => cases hrecord
      | malformed => cases hrecord
      | channel couple form payload =>
        cases hrecord
        obtain ⟨before, after, hsplit⟩ := List.append_of_mem hseg
        exact couples_lt (coupleSegments_position hsplit).1

/-- The clocks move for the channel aggregates that are emitted, and for no others. -/
theorem foldl_advance (records : List ChannelRecord) (clock : ChannelClock) :
    records.foldl ChannelRecord.advance clock =
      (records.filter fun c => !c.rejected).foldl
        (fun clock c => c.events.foldl c.tick clock) clock := by
  induction records generalizing clock with
  | nil => rfl
  | cons c records ih =>
    rw [List.foldl_cons, ih, List.filter_cons]
    cases hc : c.rejected with
    | true => simp [ChannelRecord.advance, hc]
    | false => simp [ChannelRecord.advance, hc]

theorem sum_events (records : List ChannelRecord) :
    (records.flatMap ChannelRecord.emitted).length + (records.map rejectedEvents).sum =
      (records.map ChannelRecord.nEvents).sum := by
  induction records with
  | nil => rfl
  | cons c records ih =>
    have hwhole := emitted_length c
    rw [List.flatMap_cons, List.length_append, List.map_cons, List.sum_cons, List.map_cons,
      List.sum_cons, ← ih, rejectedEvents, hwhole]
    split <;> omega

theorem sum_corruptions (kinds : ℕ → Option Kind) (segs : List Segment) :
    (segs.map (corruptions kinds)).sum =
      segs.countP (fun seg => seg = .badLength) + segs.countP (abandoned kinds) := by
  induction segs with
  | nil => rfl
  | cons seg segs ih =>
    rw [List.map_cons, List.sum_cons, ih, List.countP_cons, List.countP_cons]
    cases seg with
    | badLength =>
      simp [corruptions, abandoned]
      omega
    | aggregate words =>
      simp [corruptions]
      omega

/-- One `decode` of a buffer of any content, by a decoder in any state. What it returns is
the number of events handed out; with the events counted as uninitialised these are all the
events that the accepted headers claim. Each channel aggregate is handed out whole or not
at all. One with both words recorded is rejected exactly if it comes from an x724-type
DPP-PHA board and holds a reserved bit. The clocks follow the events handed out, and every
channel aggregate stands behind the whole lengths of those before it, rejected or not. The
counters follow, and no channel number is out of range. -/
theorem events_accounted (d : AggregateDecoder) {data : List (BitVec 8)}
    (hdata : data.length < 2 ^ 32) :
    let segs := segments (wordsOf data)
    let records := recordsOf (kindOf d) (wordsOf data)
    ∃ r, decode d data = .ok r ∧
      r.count = r.events.length ∧
      r.count + r.decoder.tally.uninitialisedEvents =
        d.tally.uninitialisedEvents + (records.map ChannelRecord.nEvents).sum ∧
      (r.events.map withoutTime = records.flatMap ChannelRecord.emitted ∧
        ∀ c ∈ records, c.emitted.length = if c.rejected then 0 else c.nEvents) ∧
      (∀ c ∈ records, c.layout.hasTS = true → c.kind.unpacker.hasData c.layout = true →
        (c.rejected = true ↔ c.kind.dpp = .pha ∧ isX724Family c.kind.name = true ∧
          ∃ words ∈ c.events, timeWordOf c.layout words &&& kReservedTime ≠ 0 ∨
            dataWordOf c.kind.unpacker c.layout words &&& kReservedEnergy ≠ 0)) ∧
      (∀ b, clockOf r.decoder b = ((records.filter fun c => c.board = b).filter
        fun c => !c.rejected).foldl (fun clock c => c.events.foldl c.tick clock) (clockOf d b)) ∧
      (∀ agg k, .aggregate agg ∈ segs → kindOf d (boardOf agg) = some k →
        ∀ before couple form payload after,
          k.couplesIn agg = before ++ .channel couple form payload :: after →
          ⟨k, boardOf agg, couple, form, payload⟩ ∈ records ∧ ∃ size rest,
            agg.drop (kAggHeaderWords + (before.map wordsUsed).sum) =
              size :: form :: (payload ++ rest) ∧
            extractBits size (format (tables k.dpp k.name) .Size (0, 31)) = payload.length + 2) ∧
      r.decoder.tally.incomplete = d.tally.incomplete +
        (records.map fun c => if c.lacks then c.emitted.length else 0).sum ∧
      r.decoder.tally.corrupt = d.tally.corrupt +
        (segs.countP (fun seg => seg = .badLength) + segs.countP (abandoned (kindOf d))) ∧
      ∀ e ∈ r.events, e.channel < kMaxChannels := by
  intro segs records
  obtain ⟨hout, _, hclock, htally⟩ := run_spec d segs
  have hout : (run segmentStep d segs).1.map withoutTime =
      records.flatMap ChannelRecord.emitted := hout
  refine ⟨_, decode_ok d hdata, rfl, ?_, ⟨hout, fun c _ => emitted_length c⟩,
    fun c _ hts hdata => rejected_iff c hts hdata, ?_, ?_, ?_, ?_, ?_⟩
  · have hlength := congrArg List.length hout
    have hsum := sum_events records
    rw [List.length_map] at hlength
    show (run segmentStep d segs).1.length + (run segmentStep d segs).2.tally.uninitialisedEvents = _
    rw [hlength, htally]
    show (records.flatMap ChannelRecord.emitted).length +
      (d.tally.uninitialisedEvents + (records.map rejectedEvents).sum) = _
    omega
  · intro b
    exact (hclock b).trans (foldl_advance _ _)
  · intro agg k hin hkind before couple form payload after hsplit
    obtain ⟨_, size, rest, hdrop, hsize⟩ := coupleSegments_position hsplit
    refine ⟨List.mem_flatMap.mpr ⟨_, hin, ?_⟩, size, rest, ?_, hsize⟩
    · simp only [recordsIn, hkind, hsplit]
      exact List.mem_filterMap.mpr ⟨.channel couple form payload, by simp, rfl⟩
    · rw [← hdrop, List.drop_drop]
  · show (run segmentStep d segs).2.tally.incomplete = _
    rw [htally]
    rfl
  · show (run segmentStep d segs).2.tally.corrupt = _
    rw [htally, ← sum_corruptions]
  · intro e he
    have hin : withoutTime e ∈ records.flatMap ChannelRecord.emitted := by
      rw [← hout]
      exact List.mem_map_of_mem he
    obtain ⟨c, hc, hemitted⟩ := List.mem_flatMap.mp hin
    have hchannel := emitted_channel (recordsOf_couple hc) (withoutTime e) hemitted
    exact hchannel

/-- An aggregate of a V1724: two events on channel 0, and one on channel 1 with bit 31 of
its time word set. -/
def halfWritten : BoardStream.BoardAggregate where
  words := [0xA000000E#32, 0x08000003#32, 0, 0, 6, 0x30000000#32, 1000, 0x123#32, 2000, 0x456#32,
    4, 0x30000000#32, 0x80000BB8#32, 0x789#32]
  long := Nat.le_add_left 4 10
  sync := by
    show isSync 0xA000000E#32 = true
    decide
  announced := by
    show aggLength 0xA000000E#32 = 14
    decide

theorem events_accounted_half_written :
    ∃ r, decode (registerBoard {} 1 .pha "V1724" 10000) (BoardStream.payload [halfWritten]) = .ok r ∧
      r.count + r.decoder.tally.uninitialisedEvents = 3 := by
  obtain ⟨r, hr, _, hsum, _⟩ := events_accounted (registerBoard {} 1 .pha "V1724" 10000)
    (show (BoardStream.payload [halfWritten]).length < 2 ^ 32 by decide)
  refine ⟨r, hr, hsum.trans ?_⟩
  rw [BoardStream.wordsOf_payload, recordsOf, BoardStream.segments_stream_only]
  decide +kernel

end EventAccounting
end CaenDaq
