import CaenDaq.EventRoundTrip

/-!
# Decoding inverts the board format

From events to channel aggregates, board aggregates and whole buffers: the decoder
emits the events that were encoded, each with the time its board's clock gives it.
-/

namespace CaenDaq
namespace StreamRoundTrip

open Checked Transducer DataFrame AggregateDecoder AggregateStream DecoderRefinement BoardStream
open BoardFormat EventRoundTrip

/-- A bench that stands where the reference does: the board is of the family, its period
and clock are those of the reference, and no counter has moved. -/
structure Follows (f : Family) (name : String) (tally : Tally) (s : Bench)
    (b : ℕ × ChannelClock) : Prop where
  firmware : s.bd.frame.dppType = f.format.firmware
  name : s.bd.frame.dgtzName = name
  clock : (s.bd.psPerTick, s.bd.clock) = b
  counters : s.tally = { tally with wave := s.tally.wave }

theorem meaning_timePs {f : Family} {form : Word} (e : BoardFormat.Event f form) (board couple : ℕ) :
    (e.meaning board couple).timePs = 0 ∧ (e.meaning board couple).timestamp = e.counter := by
  unfold BoardFormat.Event.meaning
  cases f.format.firmware <;> exact ⟨rfl, rfl⟩

theorem eventsOf_append {l : DataLayout} {w : List Word} (hw : w.length = l.evtSize)
    (hpos : 0 < l.evtSize) (rest : List Word) :
    eventsOf l (w ++ rest) = w :: eventsOf l rest := by
  have hcount : (w ++ rest).length / l.evtSize = rest.length / l.evtSize + 1 := by
    rw [List.length_append, hw, Nat.add_comm, Nat.add_div_right _ hpos]
  have hhead : slice (w ++ rest) (0 * l.evtSize) l.evtSize = w := by
    rw [Nat.zero_mul, slice, List.drop_zero, ← hw, List.take_left]
  have htail : ∀ i, slice (w ++ rest) ((i + 1) * l.evtSize) l.evtSize =
      slice rest (i * l.evtSize) l.evtSize := by
    intro i
    rw [slice, Nat.add_mul, Nat.one_mul, Nat.add_comm, ← List.drop_drop, ← hw, List.drop_left, slice]
  rw [eventsOf, hcount, List.range_succ_eq_map, List.map_cons, hhead, List.map_map]
  congr 1
  exact List.map_congr_left fun i _ => htail i

theorem eventsOf_flatten {l : DataLayout} (hpos : 0 < l.evtSize) {ws : List (List Word)}
    (h : ∀ w ∈ ws, w.length = l.evtSize) : eventsOf l ws.flatten = ws := by
  induction ws with
  | nil => simp [eventsOf]
  | cons w ws ih =>
    rw [List.flatten_cons, eventsOf_append (h w (by simp)) hpos,
      ih fun w hw => h w (by simp [hw])]

theorem eventsOf_length {l : DataLayout} {words event : List Word}
    (h : event ∈ eventsOf l words) : event.length = l.evtSize := by
  obtain ⟨i, hi, rfl⟩ := List.mem_map.mp h
  have hdiv := Nat.div_mul_le_self words.length l.evtSize
  have hmul : (i + 1) * l.evtSize ≤ words.length / l.evtSize * l.evtSize :=
    Nat.mul_le_mul_right _ (List.mem_range.mp hi)
  rw [Nat.add_mul, Nat.one_mul] at hmul
  exact slice_length (hmul.trans hdiv)

theorem and_reserved (n : ℕ) : n &&& 0xF3000000 = ((n >>> 24) &&& 0xF3) <<< 24 := by
  apply Nat.eq_of_testBit_eq
  intro i
  rw [show 0xF3000000 = 0xF3 <<< 24 by decide, Nat.testBit_and, Nat.testBit_shiftLeft,
    Nat.testBit_shiftLeft, Nat.testBit_and, Nat.testBit_shiftRight]
  by_cases hi : 24 ≤ i
  · simp [hi, Nat.add_sub_of_le hi]
  · simp [hi]

section Reserved

variable {form : Word} (e : BoardFormat.Event .phaX724 form)

theorem timeWord_reserved : e.timeWord &&& 0x80000000 = 0 := by
  have htag : e.tag < 2 ^ 30 := e.tag_lt
  have htop : e.top < 2 := e.top_lt
  have hlt : e.timeWord.toNat < 2 ^ 31 := by
    have hnat : e.timeWord.toNat = e.tag + e.top * 2 ^ 30 := timeWord_toNat e
    omega
  apply BitVec.eq_of_toNat_eq
  rw [BitVec.toNat_and, show (0x80000000 : Word).toNat = 2 ^ 31 by decide, Nat.and_two_pow,
    Nat.testBit_lt_two_pow hlt]
  rfl

theorem dataWord_reserved : e.dataWord &&& 0xF3000000 = 0 := by
  have hp : e.pileup.toNat < 2 ^ 1 := Bool.toNat_lt _
  have htop : e.dataWord.toNat >>> 24 = e.rest := by
    rw [Nat.shiftRight_eq_div_pow, show 2 ^ 24 = 2 ^ 15 * 2 ^ 1 * 2 ^ 8 by decide,
      ← Nat.div_div_eq_div_mul, ← Nat.div_div_eq_div_mul, dataWord_toNat, pack_div e.value_lt,
      pack_div hp]
    exact pack_div e.high_lt e.rest
  have hrest : e.rest &&& 0xF3 = 0 := by
    obtain ⟨hmod, hlt⟩ := e.reserved rfl
    have hcases : e.rest = 0 ∨ e.rest = 4 ∨ e.rest = 8 ∨ e.rest = 12 := by omega
    rcases hcases with h | h | h | h <;> rw [h] <;> decide
  apply BitVec.eq_of_toNat_eq
  rw [BitVec.toNat_and, show (0xF3000000 : Word).toNat = 0xF3000000 by decide, and_reserved, htop,
    hrest]
  rfl

end Reserved

section Channel

variable {f : Family} {name : String} {tally : Tally} (hname : f.Named name)

include hname

/-- One event: the decoder's step is the reference's. -/
theorem eventStep_event {board couple : ℕ} (hboard : board < 2 ^ 5) (hcouple : couple < 8)
    {form : Word} (hrec : Recorded f form) (e : BoardFormat.Event f form) {s : Bench}
    {b : ℕ × ChannelClock} (h : Follows f name tally s b) :
    let l := resolveLayout f.format.firmware name form
    (eventStep (Family.unpacker f) board couple l s e.words).1 = (stamp b ⟨board, couple, f, form, e⟩).1 ∧
      Follows f name tally (eventStep (Family.unpacker f) board couple l s e.words).2
        (stamp b ⟨board, couple, f, form, e⟩).2 := by
  intro l
  have hr : Reads f form l := reads_resolveLayout hname form
  have hsize : l.evtSize = eventLength f form := eventLength_resolveLayout hname hrec
  have hts : l.hasTS = true := hr.hasTS.trans hrec.time
  have hdata : (Family.unpacker f).hasData l = true := hr.hasData.trans hrec.data
  have hwhole : s.countIncomplete (lacking (Family.unpacker f) l) = s := by
    simp only [lacking, hts, hdata, Bool.not_true, Bool.or_self, Bench.countIncomplete,
      Bool.false_eq_true, if_false]
  obtain ⟨hzero, hcounter⟩ := meaning_timePs e board couple
  obtain rfl := h.clock
  have hx := extensionOf_event e hr hrec hsize
  simp only [eventStep, hwhole, untimed_event e hr hrec hsize hboard hcouple, timed, hts, if_true,
    widthOf_event e hr hrec hsize, hx, setTime, hcounter, Bench.setClock, stamp, timeOf,
    SentEvent.meaning]
  by_cases hps : s.bd.psPerTick = 0
  · simp only [hps, if_true]
    refine ⟨by rw [← hzero, ← hcounter], h.firmware, h.name, by rw [← hps]; rfl, ?_⟩
    rw [h.counters]
    rfl
  · simp only [hps, if_false, Nat.shiftRight_eq_div_pow]
    refine ⟨trivial, h.firmware, h.name, rfl, ?_⟩
    rw [h.counters]
    rfl

theorem reserved_event {form : Word} (hrec : Recorded f form) (e : BoardFormat.Event f form) :
    ((Family.unpacker f).checksReserved &&
      reservedSet (resolveLayout f.format.firmware name form) e.words) = false := by
  have hr : Reads f form (resolveLayout f.format.firmware name form) := reads_resolveLayout hname form
  have hsize := eventLength_resolveLayout hname hrec
  have hfirst := timeWordOf_event e hr hrec
  have hlast := dataWordOf_event e hr hrec hsize
  rw [timeWordOf, if_pos (hr.hasTS.trans hrec.time)] at hfirst
  rw [dataWordOf, if_pos (hr.hasData.trans hrec.data)] at hlast
  rw [reservedSet, hfirst, hlast, hr.resTS, hr.resEnergy]
  cases f with
  | phaX724 =>
    rw [if_pos rfl, if_pos rfl, timeWord_reserved, dataWord_reserved]
    rfl
  | phaX730 => simp
  | psdX730 => simp
  | psdX720 => simp

def sentBy (board couple : ℕ) (c : ChannelAggregate f) : List SentEvent :=
  c.events.map fun e => ⟨board, couple, f, c.form, e⟩

theorem coupleStep_channel {board couple : ℕ} (hboard : board < 2 ^ 5) (hcouple : couple < 8)
    (c : ChannelAggregate f) {s : Bench} {b : ℕ × ChannelClock} (h : Follows f name tally s b) :
    (coupleStep (Family.unpacker f) board s (.channel couple c.form c.payload)).1 =
        (run stamp b (sentBy board couple c)).1 ∧
      Follows f name tally
        (coupleStep (Family.unpacker f) board s (.channel couple c.form c.payload)).2
        (run stamp b (sentBy board couple c)).2 := by
  have hlayout : (s.setDataFormat c.form).bd.frame.layout =
      resolveLayout f.format.firmware name c.form := by
    rw [← h.firmware, ← h.name]
    exact setDataFormat_layout _ _
  have hsize := eventLength_resolveLayout hname c.recorded
  have hpos : 0 < eventLength f c.form := by
    unfold eventLength
    omega
  have hevents : eventsOf (resolveLayout f.format.firmware name c.form) c.payload =
      c.events.map BoardFormat.Event.words := by
    apply eventsOf_flatten (by rw [hsize]; exact hpos)
    intro w hw
    obtain ⟨e, _, rfl⟩ := List.mem_map.mp hw
    rw [e.words_length, hsize]
  have hclean : ((Family.unpacker f).checksReserved &&
      (c.events.map BoardFormat.Event.words).any
        (reservedSet (resolveLayout f.format.firmware name c.form))) = false := by
    cases hc : (Family.unpacker f).checksReserved with
    | false => rfl
    | true =>
      rw [Bool.true_and, List.any_eq_false]
      intro w hw
      obtain ⟨e, _, rfl⟩ := List.mem_map.mp hw
      have he := reserved_event hname c.recorded e
      rw [hc, Bool.true_and] at he
      simp [he]
  have hset : Follows f name tally (s.setDataFormat c.form) b :=
    ⟨(setDataFormat_dppType _ _).trans h.firmware, (setDataFormat_dgtzName _ _).trans h.name,
      h.clock, h.counters⟩
  simp only [coupleStep, hlayout, hevents, hclean, Bool.false_eq_true, if_false, sentBy, run_map]
  exact run_bisim (Follows f name tally)
    (fun s b e _ hs => eventStep_event hname hboard hcouple c.recorded e hs) _ _ hset

theorem size_format : DataFrame.format (tables f.format.firmware name) .Size (0, 31) =
    (0, f.format.sizeBits - 1) := by
  rw [(tables_named hname).1]
  cases f <;> rfl

theorem size_announced (size : Word) :
    extractBits size (DataFrame.format (tables f.format.firmware name) .Size (0, 31)) =
      size.toNat % 2 ^ f.format.sizeBits := by
  obtain ⟨_, _, _, _, _, _, _, hle⟩ := Family.format_bounds f
  have hpos : 0 < f.format.sizeBits := by cases f <;> decide
  rw [size_format hname, extractBits_low hpos (by omega)]

omit hname in
theorem coupleSegments_accepted {dpp : Firmware} {c : ℕ} {cs : List ℕ} {size form : Word}
    {payload rest : List Word}
    (hsize : extractBits size (DataFrame.format (tables dpp name) .Size (0, 31)) =
      payload.length + 2) (hevt : (resolveLayout dpp name form).evtSize ≠ 0) :
    coupleSegments dpp name (c :: cs) (size :: form :: (payload ++ rest)) =
      .channel c form payload :: coupleSegments dpp name cs rest := by
  rw [coupleSegments, hsize, if_neg (by rw [List.length_append]; omega), Nat.add_sub_cancel,
    List.take_left, List.drop_left]

theorem coupleSegments_channels (channels : ℕ → ChannelAggregate f) (cs : List ℕ) :
    coupleSegments f.format.firmware name cs (cs.map fun c => (channels c).words).flatten =
      cs.map fun c => .channel c (channels c).form (channels c).payload := by
  induction cs with
  | nil => rfl
  | cons c cs ih =>
    obtain ⟨_, _, _, _, _, _, _, hle⟩ := Family.format_bounds f
    have hfits : (channels c).length < 2 ^ f.format.sizeBits := (channels c).fits
    have hword : (channels c).sizeWord.toNat =
        (channels c).length + (channels c).sizeRest * 2 ^ f.format.sizeBits := by
      have hlt := pack_lt hfits (channels c).sizeRest_lt
      rw [Nat.add_sub_of_le (by omega)] at hlt
      exact word_toNat hlt
    have hpayload : (channels c).payload.length + 2 = (channels c).length := by
      rw [(channels c).payload_length, ChannelAggregate.length, Nat.add_comm]
    have hsize := eventLength_resolveLayout hname (channels c).recorded
    have hevt : (resolveLayout f.format.firmware name (channels c).form).evtSize ≠ 0 := by
      rw [hsize, eventLength]
      omega
    rw [List.map_cons, List.flatten_cons, ChannelAggregate.words, List.cons_append, List.cons_append,
      coupleSegments_accepted (by rw [size_announced hname, hword, pack_mod hfits, hpayload]) hevt,
      ih, List.map_cons]

end Channel

theorem isSync_nibble {n : ℕ} (h : n < 2 ^ 28) : isSync (BitVec.ofNat 32 (0xA * 2 ^ 28 + n)) = true ∧
    aggLength (BitVec.ofNat 32 (0xA * 2 ^ 28 + n)) = n := by
  have hnat : (BitVec.ofNat 32 (0xA * 2 ^ 28 + n)).toNat = 0xA * 2 ^ 28 + n := word_toNat (by omega)
  constructor
  · rw [isSync, hnat, decide_eq_true_eq]
    omega
  · rw [aggLength, hnat]
    omega

def complete (a : Aggregate) : BoardAggregate where
  words := a.words
  long := by
    rw [a.words_length]
    exact Nat.le_add_right 4 _
  sync := (isSync_nibble a.fits).1
  announced := by
    rw [a.words_length]
    exact (isSync_nibble a.fits).2

theorem headWord_fields (a : Aggregate) : boardOf a.words = a.board ∧ failOf a.words = a.fail ∧
    maskOf a.words = a.mask := by
  have hfail : a.fail.toNat < 2 := Bool.toNat_lt _
  have hboard := a.board_lt
  have hmiddle := a.middle_lt
  have hmask := a.mask_lt
  have hnat : a.headWord.toNat =
      a.board * 2 ^ 27 + a.fail.toNat * 2 ^ 26 + a.middle * 2 ^ 8 + a.mask := word_toNat (by omega)
  have hhead : headWord a.words = a.headWord := rfl
  refine ⟨?_, ?_, ?_⟩
  · rw [boardOf, hhead, hnat]
    omega
  · have hbit : a.headWord.toNat / 2 ^ 26 % 2 = a.fail.toNat := by omega
    rw [failOf, hhead, bitAt_eq, hbit]
    cases a.fail <;> rfl
  · rw [maskOf, hhead, hnat]
    omega

theorem unpackerOf_family {bd : BoardDec} {f : Family} (h : bd.frame.dppType = f.format.firmware) :
    unpackerOf bd = Family.unpacker f := by
  rw [unpackerOf, bd.isPHA_eq, h, Family.unpacker]
  cases f.format.firmware <;> rfl

theorem supported_family {bd : BoardDec} {f : Family} (h : bd.frame.dppType = f.format.firmware)
    (hname : f.Named bd.frame.dgtzName) : bd.supported = true := by
  rw [bd.supported_eq, isSupported, h, (tables_named hname).1]
  cases f <;> rfl

theorem run_couples {f : Family} {name : String} {tally : Tally} (hname : f.Named name) {board : ℕ}
    (hboard : board < 2 ^ 5) (channels : ℕ → ChannelAggregate f) (mask : ℕ) {s : Bench}
    {b : ℕ × ChannelClock} (h : Follows f name tally s b) :
    let r := run (coupleStep (Family.unpacker f) board) s
      ((couples mask).map fun c => .channel c (channels c).form (channels c).payload)
    let t := run stamp b ((couples mask).map fun c => sentBy board c (channels c)).flatten
    r.1 = t.1 ∧ Follows f name tally r.2 t.2 := by
  intro r t
  have ht : t = run (run stamp) b ((couples mask).map fun c => sentBy board c (channels c)) :=
    (run_flatten _ _ _).symm
  rw [ht]
  simp only [r, run_map]
  exact run_bisim (Follows f name tally)
    (fun s b c hc hs => coupleStep_channel hname hboard (couples_lt hc) (channels c) hs) _ _ h

theorem sent_eq (a : Aggregate) :
    a.sent = ((couples a.mask).map fun c => sentBy a.board c (a.channels c)).flatten := rfl

theorem sent_board {a : Aggregate} {x : SentEvent} (hx : x ∈ a.sent) : x.board = a.board := by
  rw [sent_eq] at hx
  obtain ⟨xs, hxs, hx⟩ := List.mem_flatten.mp hx
  obtain ⟨c, _, rfl⟩ := List.mem_map.mp hxs
  obtain ⟨e, _, rfl⟩ := List.mem_map.mp hx
  rfl

theorem timebase_update (d : AggregateDecoder) (board : ℕ) (bd : BoardDec) (tally : Tally) :
    timebase { boards := Function.update d.boards board (some bd), tally := tally } =
      Function.update (timebase d) board (bd.psPerTick, bd.clock) := by
  funext b
  by_cases hb : b = board
  · subst hb
    simp [timebase]
  · simp [timebase, Function.update_of_ne hb]

/-- A decoder after one encoded aggregate: the events of the aggregate are emitted, the
board's clock has moved by them, and of the counters only the FAIL count may move. -/
theorem segmentStep_aggregate {d : AggregateDecoder} {a : Aggregate} (h : Registered d a) :
    let r := segmentStep d (.aggregate a.words)
    r.1 = (run (keyed SentEvent.board stamp) (timebase d) a.sent).1 ∧
      timebase r.2 = (run (keyed SentEvent.board stamp) (timebase d) a.sent).2 ∧
      (∀ a', Registered d a' → Registered r.2 a') ∧
      r.2.tally = { d.tally with
        wave := r.2.tally.wave
        boardFail := d.tally.boardFail + a.fail.toNat } := by
  obtain ⟨bd, hbd, hfirmware, hnamed⟩ := h
  obtain ⟨hboard, hfail, hmask⟩ := headWord_fields a
  have hcouples : couplesOf bd a.words = (couples a.mask).map fun c =>
      .channel c (a.channels c).form (a.channels c).payload := by
    rw [couplesOf, hmask, hfirmware]
    exact coupleSegments_channels hnamed a.channels (couples a.mask)
  have hstart : Follows a.family bd.frame.dgtzName (countFail d.tally a.fail)
      ⟨bd, countFail d.tally a.fail⟩ (bd.psPerTick, bd.clock) := ⟨hfirmware, rfl, rfl, rfl⟩
  obtain ⟨hout, hend⟩ := run_couples hnamed a.board_lt a.channels a.mask hstart
  have htime : timebase d a.board = (bd.psPerTick, bd.clock) := by rw [timebase, hbd]
  have hkeyed : run (keyed SentEvent.board stamp) (timebase d) a.sent =
      ((run stamp (timebase d a.board) a.sent).1,
        Function.update (timebase d) a.board (run stamp (timebase d a.board) a.sent).2) :=
    run_keyed (fun x hx => sent_board hx) (timebase d)
  have hstep : segmentStep d (.aggregate a.words) =
      ((run (coupleStep (Family.unpacker a.family) a.board) ⟨bd, countFail d.tally a.fail⟩
        (couplesOf bd a.words)).1,
      { boards := Function.update d.boards a.board (some (run (coupleStep (Family.unpacker a.family)
          a.board) ⟨bd, countFail d.tally a.fail⟩ (couplesOf bd a.words)).2.bd)
        tally := (run (coupleStep (Family.unpacker a.family) a.board)
          ⟨bd, countFail d.tally a.fail⟩ (couplesOf bd a.words)).2.tally }) := by
    simp only [segmentStep, hboard, hfail, hbd, supported_family hfirmware hnamed, if_true,
      unpackerOf_family hfirmware]
  rw [← sent_eq] at hout hend
  intro r
  simp only [r, hstep, hkeyed, htime, hcouples]
  generalize run (coupleStep (Family.unpacker a.family) a.board) _ _ = t at hout hend ⊢
  refine ⟨hout, ?_, ?_, ?_⟩
  · rw [timebase_update, hend.clock]
  · rintro a' ⟨bd', hbd', hfirmware', hnamed'⟩
    by_cases hb : a'.board = a.board
    · obtain rfl : bd = bd' := by
        rw [hb, hbd] at hbd'
        exact Option.some.inj hbd'
      refine ⟨t.2.bd, by rw [hb]; exact Function.update_self _ _ _, ?_, ?_⟩
      · rw [hend.firmware, ← hfirmware, hfirmware']
      · rw [hend.name]
        exact hnamed'
    · exact ⟨bd', (Function.update_of_ne hb _ _).trans hbd', hfirmware', hnamed'⟩
  · rw [hend.counters, countFail]
    cases a.fail <;> rfl

/-- A decoder after a sequence of encoded aggregates. -/
theorem run_aggregates (as : List Aggregate) {d : AggregateDecoder} (h : ∀ a ∈ as, Registered d a) :
    let r := run segmentStep d (as.map fun a => .aggregate a.words)
    let t := run (keyed SentEvent.board stamp) (timebase d) (as.map Aggregate.sent).flatten
    r.1 = t.1 ∧ timebase r.2 = t.2 ∧
      r.2.tally = { d.tally with
        wave := r.2.tally.wave
        boardFail := d.tally.boardFail + (as.map fun a => a.fail.toNat).sum } := by
  induction as generalizing d with
  | nil => exact ⟨rfl, rfl, rfl⟩
  | cons a as ih =>
    obtain ⟨hout, htime, hkeep, htally⟩ := segmentStep_aggregate (h a (by simp))
    obtain ⟨hout', htime', htally'⟩ := ih (fun a' ha => hkeep a' (h a' (by simp [ha])))
    intro r t
    simp only [r, t, List.map_cons, List.flatten_cons, run_cons, run_append, List.sum_cons]
    rw [← htime, ← hout]
    refine ⟨by rw [hout'], htime', ?_⟩
    rw [htally', htally]
    simp only [Nat.add_assoc]

theorem segments_filler {filler : List Word} (h : ∀ w ∈ filler, isSync w = false)
    (rest : List Word) : segments (filler ++ rest) = segments rest := by
  induction filler with
  | nil => rfl
  | cons w filler ih =>
    have hw : isSync w = false := h w (by simp)
    have htail := ih fun w hw => h w (by simp [hw])
    rw [List.cons_append, segments]
    by_cases hlen : (filler ++ rest).length + 1 < kAggHeaderWords
    · rw [if_pos hlen, ← htail]
      exact (segments_short (by omega)).symm
    · rw [if_neg hlen, if_pos (by rw [hw]; rfl), htail]

theorem segments_cut (a : BoardAggregate) {k : ℕ} (h : k < a.words.length) :
    segments (a.words.take k) = [] := by
  by_cases hk : k < kAggHeaderWords
  · exact segments_short (by rw [List.length_take]; omega)
  · rcases a with ⟨_ | ⟨sync, ws⟩, hlong, hsync, hlen⟩
    · exact absurd hlong (by decide)
    · have hs : isSync sync = true := hsync
      have hn : aggLength sync = ws.length + 1 := hlen
      have hk' : k ≤ ws.length := Nat.lt_succ_iff.mp h
      have hlong' : kAggHeaderWords ≤ ws.length + 1 := hlong
      obtain ⟨j, rfl⟩ : ∃ j, k = j + 1 := ⟨k - 1, by unfold kAggHeaderWords at hk; omega⟩
      have hj : (ws.take j).length = j := by
        rw [List.length_take]
        omega
      rw [List.take_succ_cons, segments, hj, if_neg hk, if_neg (by simp [hs]),
        dif_neg (by omega), if_pos (by omega)]

theorem segments_buffer {items : List (List Word × Aggregate)}
    (h : ∀ i ∈ items, ∀ w ∈ i.1, isSync w = false) (rest : List Word) :
    segments ((items.map fun i => i.1 ++ i.2.words).flatten ++ rest) =
      (items.map fun i => Segment.aggregate i.2.words) ++ segments rest := by
  induction items with
  | nil => rfl
  | cons i items ih =>
    have hrest := ih fun i hi => h i (by simp [hi])
    have hagg := segments_aggregate (complete i.2)
      ((items.map fun i => i.1 ++ i.2.words).flatten ++ rest)
    rw [List.map_cons, List.flatten_cons, List.append_assoc, List.append_assoc,
      segments_filler (h i (by simp)), List.map_cons, List.cons_append, ← hrest]
    exact hagg

theorem wordsOf_take_bytesOf (ws : List Word) (k : ℕ) :
    wordsOf ((bytesOf ws).take k) = ws.take (k / 4) := by
  induction ws generalizing k with
  | nil => simp [bytesOf, wordsOf]
  | cons w ws ih =>
    rcases k with _ | _ | _ | _ | k
    · simp [wordsOf]
    · simp [bytesOf, wordsOf]
    · simp [bytesOf, wordsOf]
    · simp [bytesOf, wordsOf]
    · have hdiv : (k + 1 + 1 + 1 + 1) / 4 = k / 4 + 1 := by omega
      simp only [bytesOf, List.take_succ_cons, wordsOf, ih, hdiv]
      rw [word_of_bytes]

theorem segments_bytes (buffer : Buffer) : segments (wordsOf buffer.bytes) =
    buffer.aggregates.map fun a => .aggregate a.words := by
  have hfiller : ∀ w ∈ buffer.trailing ++ (buffer.items.map Prod.fst).flatten, isSync w = false := by
    intro w hw
    rw [isSync, decide_eq_false_iff_not]
    exact buffer.filler w hw
  have hitems : ∀ i ∈ buffer.items, ∀ w ∈ i.1, isSync w = false := fun i hi w hw =>
    hfiller w (List.mem_append_right _ (List.mem_flatten.mpr ⟨i.1, List.mem_map_of_mem hi, hw⟩))
  have hcut : buffer.cut / 4 < buffer.last.words.length := by
    have h := buffer.cut_lt
    rw [payload, bytesOf_length, stream_cons, stream_nil, List.append_nil] at h
    omega
  rw [Buffer.bytes, wordsOf_bytesOf, payload, wordsOf_take_bytesOf, stream_cons, stream_nil,
    List.append_nil, Buffer.words, List.append_assoc, segments_buffer hitems,
    segments_filler (fun w hw => hfiller w (List.mem_append_left _ hw)), segments_cut _ hcut,
    List.append_nil, Buffer.aggregates, List.map_map]
  rfl

theorem length_of_map_eq {α β γ : Type} {f : α → γ} {g : β → γ} {xs : List α} {ys : List β}
    (h : xs.map f = ys.map g) : xs.length = ys.length := by
  have hlength := congrArg List.length h
  rwa [List.length_map, List.length_map] at hlength

theorem run_stamp_fields (st : ℕ → ℕ × ChannelClock) (xs : List SentEvent) :
    ((run (keyed SentEvent.board stamp) st xs).1.map fun e => { e with timePs := 0 }) =
      xs.map SentEvent.meaning := by
  induction xs generalizing st with
  | nil => rfl
  | cons x xs ih =>
    have hzero : ({ x.meaning with timePs := 0 } : DecodedEvent) = x.meaning := by
      obtain ⟨hz, _⟩ := meaning_timePs x.event x.board x.couple
      rw [← hz]
      rfl
    rw [run_cons, List.map_append, ih, List.map_cons]
    simp only [keyed, stamp, List.map_cons, List.map_nil, List.singleton_append, hzero]

/-- Decoding inverts the board format: the events of the complete aggregates come out in
order, each with the time of its board's clock, and are counted; nothing is rejected. -/
theorem decode_inverts (d : AggregateDecoder) (buffer : Buffer)
    (hregistered : ∀ a ∈ buffer.aggregates, Registered d a)
    (hsize : buffer.bytes.length < 2 ^ 32) :
    ∃ r, decode d buffer.bytes = .ok r ∧
      (r.events.map fun e => { e with timePs := 0 }) = buffer.sent.map SentEvent.meaning ∧
      r.events = (run (keyed SentEvent.board stamp) (timebase d) buffer.sent).1 ∧
      r.count = buffer.sent.length ∧
      timebase r.decoder = (run (keyed SentEvent.board stamp) (timebase d) buffer.sent).2 ∧
      r.decoder.tally = { d.tally with
        wave := r.decoder.tally.wave
        boardFail := d.tally.boardFail + (buffer.aggregates.map fun a => a.fail.toNat).sum } := by
  obtain ⟨hout, htime, htally⟩ := run_aggregates buffer.aggregates hregistered
  have hfields := run_stamp_fields (timebase d) buffer.sent
  have hcount : (run (keyed SentEvent.board stamp) (timebase d) buffer.sent).1.length =
      buffer.sent.length := length_of_map_eq hfields
  refine ⟨_, decode_ok d hsize, ?_⟩
  rw [decodeWords, segments_bytes]
  refine ⟨?_, hout, ?_, htime, htally⟩
  · rw [← hfields, Buffer.sent, ← hout]
    rfl
  · rw [← hcount, Buffer.sent, ← hout]
    rfl

/-- A V1730 event with a trace of eight samples and an extended time stamp. -/
def tracedEvent : BoardFormat.Event .phaX730 0x78000001 where
  tag := 1000
  top := 1
  trace := List.replicate 4 (⟨100, 1⟩, ⟨200, 2⟩)
  extrasHigh := 5
  extrasLow := 7
  value := 4321
  pileup := true
  high := 16
  rest := 3
  tag_lt := by decide
  top_lt := by decide
  trace_length := by decide
  half_lt := by decide
  extrasHigh_lt := by decide
  extrasLow_lt := by decide
  value_lt := by decide
  high_lt := by decide
  rest_lt := by decide
  reserved := by decide

def tracedAggregate : Aggregate where
  family := .phaX730
  board := 3
  fail := true
  middle := 9
  mask := 2
  header₂ := 17
  header₃ := 18
  channels := fun _ =>
    { form := 0x78000001
      recorded := ⟨by decide, by decide, fun _ => by decide⟩
      events := [tracedEvent]
      sizeRest := 1
      fits := by decide
      sizeRest_lt := by decide }
  board_lt := by decide
  middle_lt := by decide
  mask_lt := by decide
  fits := by decide

def tracedBuffer : Buffer where
  items := [([0xFFFFFFFF#32], tracedAggregate)]
  trailing := [0x00000000#32]
  last := hit 3
  cut := 21
  filler := by
    intro w hw
    rcases List.mem_append.mp hw with hw | hw
    · obtain rfl := List.mem_singleton.mp hw
      decide
    · obtain rfl : w = 0xFFFFFFFF#32 := by simpa using hw
      decide
  cut_lt := by
    rw [payload, bytesOf_length]
    decide

theorem decode_inverts_traced :
    ∃ r, decode (registerBoard {} 3 .pha "V1730" 2000) tracedBuffer.bytes = .ok r ∧
      (r.events.map fun e => { e with timePs := 0 }) = tracedBuffer.sent.map SentEvent.meaning ∧
      r.events = (run (keyed SentEvent.board stamp)
        (timebase (registerBoard {} 3 .pha "V1730" 2000)) tracedBuffer.sent).1 ∧
      r.count = tracedBuffer.sent.length ∧
      timebase r.decoder = (run (keyed SentEvent.board stamp)
        (timebase (registerBoard {} 3 .pha "V1730" 2000)) tracedBuffer.sent).2 ∧
      r.decoder.tally = { wave := r.decoder.tally.wave, boardFail := 1 } :=
  decode_inverts (registerBoard {} 3 .pha "V1730" 2000) tracedBuffer
    (by
      intro a ha
      obtain rfl := List.mem_singleton.mp ha
      exact ⟨newBoard .pha "V1730" 2000, by rfl, by rfl, by decide, by decide⟩)
    (by decide)

end StreamRoundTrip
end CaenDaq
