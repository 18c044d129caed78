import CaenDaq.AggregateStream

/-!
# The walk computes the meaning of the buffer

Loop by loop the checked decoder is shown to be the transducer cascade of
`AggregateStream`: the event loop, the search for reserved bits, the couple loop and
the outer walk. Every read, offset sum and division is discharged on the way, so a
buffer of less than 4 GiB never leads to a fault.
-/

namespace CaenDaq
namespace DecoderRefinement

open Checked Transducer DataFrame AggregateDecoder AggregateStream

def Fits (u : Unpacker) (layout : DataLayout) : Prop :=
  layout.hasTS.toNat + (u.hasData layout).toNat + layout.hasExtras.toNat +
    (if layout.hasTrace then layout.numSamples / 2 else 0) ≤ layout.evtSize

theorem fits_unpackerOf (bd : BoardDec) (dpp : Firmware) (name : String) (form : Word) :
    Fits (unpackerOf bd) (resolveLayout dpp name form) := by
  have h := resolveLayout_evtSize dpp name form
  unfold Fits unpackerOf
  cases bd.isPHA with
  | true => simp only [if_true, phaUnpacker]; omega
  | false => simp only [Bool.false_eq_true, if_false, psdUnpacker]; omega

section Event

variable {u : Unpacker} {buf : List Word} {agg chan : Window} {layout : DataLayout} {ev : ℕ}

theorem readIn_event (hw : ∀ w ∈ [agg, chan], w.lo ≤ ev ∧ ev + layout.evtSize ≤ w.hi)
    (hb : ev + layout.evtSize ≤ buf.length) {i : ℕ} (hi : i < layout.evtSize) :
    readIn [agg, chan, ⟨ev, ev + layout.evtSize⟩] buf (ev + i) =
      .ok ((slice buf ev layout.evtSize).getD i 0) := by
  have hget : buf[ev + i]? = some buf[ev + i] := List.getElem?_eq_getElem (by omega)
  have hslice : (slice buf ev layout.evtSize).getD i 0 = buf[ev + i] := by
    rw [List.getD_eq_getElem?_getD, slice_getElem? hi, hget, Option.getD_some]
  rw [hslice]
  apply readIn_ok _ hget
  intro w hm
  simp only [List.mem_cons, List.not_mem_nil, or_false] at hm
  have hagg := hw agg (by simp)
  have hchan := hw chan (by simp)
  rcases hm with rfl | rfl | rfl
  · omega
  · omega
  · simp only; omega

theorem unpackWave_event (hw : ∀ w ∈ [agg, chan], w.lo ≤ ev ∧ ev + layout.evtSize ≤ w.hi)
    (hb : ev + layout.evtSize ≤ buf.length) (hfit : Fits u layout) (htrace : layout.hasTrace = true)
    (wave : List Sample) :
    ∃ r, unpackWave [agg, chan, ⟨ev, ev + layout.evtSize⟩] buf layout
        (ev + if layout.hasTS then 1 else 0) wave = .ok r ∧
      r.1.take r.2 = traceSamples layout (traceWordsOf layout (slice buf ev layout.evtSize)) ∧
      r.1 = nextWave layout (slice buf ev layout.evtSize) wave := by
  have hsum : (if layout.hasTS then 1 else 0) + layout.numSamples / 2 ≤ layout.evtSize := by
    unfold Fits at hfit
    rw [htrace, if_pos rfl] at hfit
    cases h : layout.hasTS <;> simp [h] at hfit ⊢ <;> omega
  have hwords : slice buf (ev + if layout.hasTS then 1 else 0) (layout.numSamples / 2) =
      traceWordsOf layout (slice buf ev layout.evtSize) := by
    rw [traceWordsOf, htrace, if_pos rfl, slice_slice hsum]
  have hlen : (traceWordsOf layout (slice buf ev layout.evtSize)).length = layout.numSamples / 2 := by
    rw [← hwords]
    exact slice_length (by omega)
  by_cases hn : layout.numSamples / 2 = 0
  · refine ⟨(wave, 0), by simp [unpackWave, hn], ?_, by simp [nextWave, hn]⟩
    have hnil : traceWordsOf layout (slice buf ev layout.evtSize) = [] :=
      List.length_eq_zero_iff.mp (by omega)
    simp [hnil, traceSamples]
  · have hread : readMany [agg, chan, ⟨ev, ev + layout.evtSize⟩] buf
        (ev + if layout.hasTS then 1 else 0) (layout.numSamples / 2) =
          .ok (slice buf (ev + if layout.hasTS then 1 else 0) (layout.numSamples / 2)) :=
      readMany_ok (by
        intro w hm
        simp only [List.mem_cons, List.not_mem_nil, or_false] at hm
        have hagg := hw agg (by simp)
        have hchan := hw chan (by simp)
        rcases hm with rfl | rfl | rfl
        · omega
        · omega
        · simp only; omega) (by omega)
    rw [hwords] at hread
    refine ⟨(traceSamples layout (traceWordsOf layout (slice buf ev layout.evtSize)),
      if layout.dualTrace then layout.numSamples / 2 else 2 * (layout.numSamples / 2)),
      by simp only [unpackWave, hn, if_false, hread, ok_bind, pure_eq_ok], ?_, ?_⟩
    · apply List.take_of_length_le
      cases hd : layout.dualTrace <;> simp [traceSamples, hd, hlen, Nat.mul_comm]
    · simp only [nextWave, htrace, hn, ne_eq, not_false_eq_true, and_self, if_true]

/-- Only the times of an event depend on anything but its own words. -/
theorem setTime_wave (s : Bench) (e : DecodedEvent) (width fineTS fineBits : ℕ)
    (wave : List Sample) :
    setTime s { e with wave := wave } width fineTS fineBits =
      ({ (setTime s e width fineTS fineBits).1 with wave := wave },
        (setTime s e width fineTS fineBits).2) := by
  simp only [setTime]
  split <;> rfl

theorem timed_wave (s : Bench) (words : List Word) (e : DecodedEvent) (wave : List Sample) :
    timed u layout s words { e with wave := wave } =
      ({ (timed u layout s words e).1 with wave := wave }, (timed u layout s words e).2) := by
  unfold timed
  split
  · exact setTime_wave _ _ _ _ _ _
  · rfl

theorem timed_no_wave (s : Bench) (words : List Word) (e : DecodedEvent) (h : e.wave = []) :
    (timed u layout s words e).1.wave = [] := by
  simp only [timed, setTime]
  split_ifs <;> exact h

theorem emitEvent_ok (hw : ∀ w ∈ [agg, chan], w.lo ≤ ev ∧ ev + layout.evtSize ≤ w.hi)
    (hb : ev + layout.evtSize ≤ buf.length) (hlen : buf.length < 2 ^ 32) (hfit : Fits u layout)
    (hsize : 0 < layout.evtSize) (r : DecodedEvent × Bench) (hwave : r.1.wave = []) :
    emitEvent [agg, chan, ⟨ev, ev + layout.evtSize⟩] buf layout ev r =
      .ok ([{ r.1 with
          wave := traceSamples layout (traceWordsOf layout (slice buf ev layout.evtSize)) }],
        r.2.setWave (nextWave layout (slice buf ev layout.evtSize) r.2.tally.wave)) := by
  unfold emitEvent
  cases htrace : layout.hasTrace with
  | true =>
    obtain ⟨w, hrun, htake, hnext⟩ := unpackWave_event hw hb hfit htrace r.2.tally.wave
    have hadd : add 32 ev (if layout.hasTS then 1 else 0) =
        .ok (ev + if layout.hasTS then 1 else 0) := add_ok (by split <;> omega)
    rw [← htake, ← hnext]
    simp only [if_true, hadd, ok_bind, hrun, pure_eq_ok]
  | false =>
    have hsame : nextWave layout (slice buf ev layout.evtSize) r.2.tally.wave = r.2.tally.wave := by
      simp [nextWave, htrace]
    have hnone : traceSamples layout (traceWordsOf layout (slice buf ev layout.evtSize)) = [] := by
      simp [traceWordsOf, htrace, traceSamples]
    rw [hsame, hnone, ← hwave]
    rfl

theorem channelOf_lt (layout : DataLayout) {couple : ℕ} (hc : couple < 8) (timeWord : Word) :
    channelOf layout couple timeWord < kMaxChannels := by
  have hbit : (timeWord.toNat >>> 31) &&& 0x1 ≤ 1 := Nat.and_le_right
  unfold channelOf kMaxChannels
  split <;> omega

/-- One round of the event loop is one step over the words of the event. -/
theorem eventBody_ok (hw : ∀ w ∈ [agg, chan], w.lo ≤ ev ∧ ev + layout.evtSize ≤ w.hi)
    (hb : ev + layout.evtSize ≤ buf.length) (hlen : buf.length < 2 ^ 32) (hfit : Fits u layout)
    (hsize : 0 < layout.evtSize) {board couple base evt : ℕ} (hc : couple < 8)
    (hev : base + evt * layout.evtSize = ev) (s : Bench) :
    eventBody u buf agg chan board couple base layout s evt =
      .ok (eventStep u board couple layout s (slice buf ev layout.evtSize)) := by
  have hparts := hfit
  unfold Fits at hparts
  have hmul : mul 32 evt layout.evtSize = .ok (evt * layout.evtSize) := mul_ok (by omega)
  have hadd : add 32 base (evt * layout.evtSize) = .ok ev := by
    rw [← hev]
    exact add_ok (by omega)
  have htime : select layout.hasTS
      (readIn [agg, chan, ⟨ev, ev + layout.evtSize⟩] buf ev) 0 =
        .ok (timeWordOf layout (slice buf ev layout.evtSize)) := by
    apply select_ok
    intro h
    rw [h] at hparts
    simpa using readIn_event hw hb (i := 0) (by simp only [Bool.toNat_true] at hparts; omega)
  have hdata : select (u.hasData layout) (do
      readIn [agg, chan, ⟨ev, ev + layout.evtSize⟩] buf
        (← add 32 ev (← sub layout.evtSize 1))) 0 =
        .ok (dataWordOf u layout (slice buf ev layout.evtSize)) := by
    apply select_ok
    intro h
    rw [h] at hparts
    simp only [Bool.toNat_true] at hparts
    rw [sub_ok (by omega), ok_bind, add_ok (by omega), ok_bind]
    exact readIn_event hw hb (by omega)
  have hextras : select layout.hasExtras (do
      readIn [agg, chan, ⟨ev, ev + layout.evtSize⟩] buf
        (← add 32 ev (← sub (← sub layout.evtSize 1) (if u.hasData layout then 1 else 0)))) 0 =
        .ok (extrasWordOf u layout (slice buf ev layout.evtSize)) := by
    apply select_ok
    intro h
    rw [h] at hparts
    have hback : 1 + (if u.hasData layout then 1 else 0) ≤ layout.evtSize := by
      cases hd : u.hasData layout <;> simp [hd] at hparts ⊢ <;> omega
    rw [sub_ok (by omega), ok_bind, sub_ok (by omega), ok_bind, add_ok (by omega), ok_bind]
    exact readIn_event hw hb (by omega)
  have hchannel := channelOf_lt layout hc
    (timeWordOf layout (slice buf ev layout.evtSize))
  simp only [eventBody, hmul, hadd, htime, hdata, hextras, ok_bind,
    if_neg (Nat.not_le.mpr hchannel)]
  have hemit := emitEvent_ok hw hb hlen hfit hsize
    (timed u layout (s.countIncomplete (lacking u layout)) (slice buf ev layout.evtSize)
      (u.fields layout board
        (channelOf layout couple (timeWordOf layout (slice buf ev layout.evtSize)))
        (timeWordOf layout (slice buf ev layout.evtSize))
        (dataWordOf u layout (slice buf ev layout.evtSize))
        (extensionOf u layout (slice buf ev layout.evtSize))))
    (timed_no_wave _ _ _ (u.fields_wave _ _ _ _ _ _))
  rw [eventStep, untimed, timed_wave]
  exact hemit

end Event

section Channel

variable {u : Unpacker} {buf : List Word} {agg : Window} {layout : DataLayout} {pos coupleSize : ℕ}

theorem event_inside (pos : ℕ) (hcs : 2 ≤ coupleSize) {k : ℕ}
    (hk : k < (coupleSize - 2) / layout.evtSize) :
    pos + 2 + k * layout.evtSize + layout.evtSize ≤ pos + coupleSize := by
  have hdiv := Nat.div_mul_le_self (coupleSize - 2) layout.evtSize
  have hmul : (k + 1) * layout.evtSize ≤ (coupleSize - 2) / layout.evtSize * layout.evtSize :=
    Nat.mul_le_mul_right _ hk
  rw [Nat.add_mul, Nat.one_mul] at hmul
  omega

theorem eventsOf_slice (hcs : 2 ≤ coupleSize)
    (hb : pos + coupleSize ≤ buf.length) :
    eventsOf layout (slice buf (pos + 2) (coupleSize - 2)) =
      (List.range' 0 ((coupleSize - 2) / layout.evtSize)).map fun k =>
        slice buf (pos + 2 + k * layout.evtSize) layout.evtSize := by
  rw [eventsOf, slice_length (by omega), List.range_eq_range']
  apply List.map_congr_left
  intro k hk
  have hlt : k < (coupleSize - 2) / layout.evtSize := by simpa using hk
  have hin := event_inside pos hcs hlt
  rw [slice_slice (by omega)]

theorem event_windows (hlo : agg.lo ≤ pos) (hhi : pos + coupleSize ≤ agg.hi)
    (hcs : 2 ≤ coupleSize) {k : ℕ} (hk : k < (coupleSize - 2) / layout.evtSize) :
    ∀ w ∈ [agg, (⟨pos, pos + coupleSize⟩ : Window)],
      w.lo ≤ pos + 2 + k * layout.evtSize ∧
        pos + 2 + k * layout.evtSize + layout.evtSize ≤ w.hi := by
  have hin := event_inside pos hcs hk
  intro w hm
  simp only [List.mem_cons, List.not_mem_nil, or_false] at hm
  rcases hm with rfl | rfl
  · omega
  · simp only; omega

variable (hlo : agg.lo ≤ pos) (hhi : pos + coupleSize ≤ agg.hi) (hagg : agg.hi ≤ buf.length)
  (hlen : buf.length < 2 ^ 32) (hsize : 0 < layout.evtSize) (hcs : 2 ≤ coupleSize)

include hlo hhi hagg hlen hsize hcs

/-- The event loop of a channel aggregate is a run over its events. -/
theorem eventLoop_ok (hfit : Fits u layout) (board : ℕ) {couple : ℕ} (hc : couple < 8) (s : Bench) :
    forLoop (eventBody u buf agg ⟨pos, pos + coupleSize⟩ board couple (pos + 2) layout) s 0
        ((coupleSize - 2) / layout.evtSize) =
      .ok (run (eventStep u board couple layout) s
        (eventsOf layout (slice buf (pos + 2) (coupleSize - 2)))) := by
  rw [eventsOf_slice hcs (by omega)]
  apply forLoop_ok
  intro s k _ hk
  have hk' : k < (coupleSize - 2) / layout.evtSize := by omega
  have hin := event_inside pos hcs hk'
  exact eventBody_ok (event_windows hlo hhi hcs hk') (by omega) hlen hfit hsize hc
    rfl s

theorem reservedLoop_ok (k n : ℕ) (hn : k + n = (coupleSize - 2) / layout.evtSize) :
    reservedLoop buf agg ⟨pos, pos + coupleSize⟩ (pos + 2) layout k n =
      .ok (((List.range' k n).map fun k =>
        slice buf (pos + 2 + k * layout.evtSize) layout.evtSize).any (reservedSet layout)) := by
  induction n generalizing k with
  | zero => rfl
  | succ n ih =>
    have hk : k < (coupleSize - 2) / layout.evtSize := by omega
    have hin := event_inside pos hcs hk
    have hw := event_windows hlo hhi hcs hk
    have hb : pos + 2 + k * layout.evtSize + layout.evtSize ≤ buf.length := by omega
    have hfirst := readIn_event hw hb (i := 0) hsize
    have hlast := readIn_event hw hb (i := layout.evtSize - 1) (by omega)
    simp only [Nat.add_zero] at hfirst
    have hrest := ih (k + 1) (by omega)
    rw [reservedLoop, mul_ok (by omega), ok_bind, add_ok (by omega), ok_bind]
    dsimp only
    rw [hfirst, ok_bind, sub_ok (by omega), List.range'_succ, List.map_cons, List.any_cons,
      reservedSet]
    split
    · rename_i h
      simp only [decide_eq_true h, Bool.true_or, pure_eq_ok]
    · rename_i h
      rw [ok_bind, add_ok (by omega), ok_bind, hlast, ok_bind]
      split
      · rename_i h'
        simp only [decide_eq_true h', Bool.or_true, Bool.true_or, pure_eq_ok]
      · rename_i h'
        simp only [decide_eq_false h, decide_eq_false h', Bool.or_self, Bool.false_or, hrest]

end Channel

/-- Frames of one board: firmware, model and support do not change while it decodes. -/
structure SameBoard (bd : BoardDec) (dpp : Firmware) (name : String) : Prop where
  dpp_eq : bd.frame.dppType = dpp
  name_eq : bd.frame.dgtzName = name

theorem SameBoard.of_frame {bd bd' : BoardDec} {dpp : Firmware} {name : String}
    (h : SameBoard bd dpp name) (hf : bd'.frame = bd.frame) : SameBoard bd' dpp name :=
  ⟨hf ▸ h.dpp_eq, hf ▸ h.name_eq⟩

/-- The reserved-bit condition of the source and the mask test agree: with both masks
zero no event has a reserved bit. -/
theorem reserved_guard (u : Unpacker) (layout : DataLayout) (events : List (List Word)) :
    (if (u.checksReserved && (decide (layout.resTS ≠ 0) || decide (layout.resEnergy ≠ 0))) = true
      then events.any (reservedSet layout) else false) =
      (u.checksReserved && events.any (reservedSet layout)) := by
  by_cases hu : u.checksReserved = true
  · by_cases hres : layout.resTS = 0 ∧ layout.resEnergy = 0
    · have hnone : ∀ words, reservedSet layout words = false := by
        intro words
        simp [reservedSet, hres.1, hres.2]
      simp [hu, hres.1, hres.2, hnone]
    · have hsome : (decide (layout.resTS ≠ 0) || decide (layout.resEnergy ≠ 0)) = true := by
        simp only [Bool.or_eq_true, decide_eq_true_eq]
        exact not_and_or.mp hres
      simp only [hu, hsome, Bool.true_and, if_true]
  · simp [hu]

theorem coupleSegments_short (dpp : Firmware) (name : String) {c : ℕ} {cs : List ℕ}
    {words : List Word} (h : words.length < 2) :
    coupleSegments dpp name (c :: cs) words = [.truncated] := by
  rcases words with _ | ⟨w, _ | ⟨w', rest⟩⟩
  · rfl
  · rfl
  · simp only [List.length_cons] at h
    omega

theorem slice_header {buf : List Word} {pos n : ℕ} {a b : Word} (hn : 2 ≤ n)
    (ha : buf[pos]? = some a) (hb : buf[pos + 1]? = some b) :
    slice buf pos n = a :: b :: slice buf (pos + 2) (n - 2) := by
  rw [show n = n - 2 + 1 + 1 by omega, slice_cons ha, slice_cons hb]
  rfl

/-- The couple loop from word `pos` on is a run over the couple segments of the words
that the aggregate has left. -/
theorem coupleLoop_ok {u : Unpacker} {buf : List Word} {agg : Window} {dpp : Firmware}
    {name : String} (hagg : agg.hi ≤ buf.length) (hlen : buf.length < 2 ^ 30)
    (hsup : tables dpp name ≠ .none) (hfit : ∀ form, Fits u (resolveLayout dpp name form))
    (board : ℕ) (cs : List ℕ) (hcs : ∀ c ∈ cs, c < 8) (pos : ℕ) (hlo : agg.lo ≤ pos)
    (hhi : pos ≤ agg.hi) (s : Bench) (hs : SameBoard s.bd dpp name) :
    coupleLoop u buf agg board cs pos s =
      .ok (run (coupleStep u board) s
        (coupleSegments dpp name cs (slice buf pos (agg.hi - pos)))) := by
  induction cs generalizing pos s with
  | nil => rfl
  | cons c cs ih =>
    have hlength : (slice buf pos (agg.hi - pos)).length = agg.hi - pos := slice_length (by omega)
    rw [coupleLoop, add_ok (by omega), ok_bind]
    by_cases hshort : agg.hi < pos + 2
    · rw [if_pos hshort, coupleSegments_short dpp name (by omega)]
      rfl
    · have h₀ : buf[pos]? = some buf[pos] := List.getElem?_eq_getElem (by omega)
      have h₁ : buf[pos + 1]? = some buf[pos + 1] := List.getElem?_eq_getElem (by omega)
      have hwords := slice_header (n := agg.hi - pos) (by omega) h₀ h₁
      have hrest : (slice buf (pos + 2) (agg.hi - pos - 2)).length = agg.hi - pos - 2 :=
        slice_length (by omega)
      have hsize := format_size_lt hsup buf[pos]
      have hlayout : (s.setDataFormat buf[pos + 1]).bd.frame.layout =
          resolveLayout dpp name buf[pos + 1] := by
        rw [← hs.dpp_eq, ← hs.name_eq]
        exact setDataFormat_layout _ _
      have hframe : s.bd.frame.sizeFormat = format (tables dpp name) .Size (0, 31) := by
        rw [sizeFormat, hs.dpp_eq, hs.name_eq]
      rw [if_neg (by omega), read_ok h₀, ok_bind, add_ok (by omega), ok_bind, read_ok h₁, ok_bind,
        hframe, hwords, coupleSegments, hrest]
      dsimp only
      rw [hlayout]
      generalize hn : extractBits buf[pos] (format (tables dpp name) .Size (0, 31)) = n at hsize ⊢
      rw [add_ok (by omega), ok_bind]
      by_cases hbad : n < 2 ∨ pos + n > agg.hi ∨ (resolveLayout dpp name buf[pos + 1]).evtSize = 0
      · rw [if_pos hbad, if_pos (by omega)]
        rfl
      · have hn₂ : 2 ≤ n := by omega
        have hnext : pos + n ≤ agg.hi := by omega
        have hevt : 0 < (resolveLayout dpp name buf[pos + 1]).evtSize := by omega
        have hdrop : slice buf (pos + 2 + (n - 2)) (agg.hi - pos - 2 - (n - 2)) =
            slice buf (pos + n) (agg.hi - (pos + n)) := by
          congr 1 <;> omega
        have hreserved := reservedLoop_ok hlo hnext hagg (by omega) hevt hn₂ 0 _ (Nat.zero_add _)
        rw [← eventsOf_slice hn₂ (by omega)] at hreserved
        rw [if_neg hbad, if_neg (by omega), sub_ok hn₂, ok_bind, div_ok hevt, ok_bind,
          take_slice (by omega), drop_slice, hdrop, select_ok (fun _ => hreserved), ok_bind,
          reserved_guard, run_cons, coupleStep]
        simp only [hlayout]
        have hs' : SameBoard (s.setDataFormat buf[pos + 1]).bd dpp name :=
          ⟨(setDataFormat_dppType _ _).trans hs.dpp_eq, (setDataFormat_dgtzName _ _).trans hs.name_eq⟩
        have hnEvents : (eventsOf (resolveLayout dpp name buf[pos + 1])
            (slice buf (pos + 2) (n - 2))).length =
              (n - 2) / (resolveLayout dpp name buf[pos + 1]).evtSize := by
          rw [eventsOf, List.length_map, List.length_range, slice_length (by omega)]
        by_cases hrej : (u.checksReserved &&
            (eventsOf (resolveLayout dpp name buf[pos + 1]) (slice buf (pos + 2) (n - 2))).any
              (reservedSet (resolveLayout dpp name buf[pos + 1]))) = true
        · simp only [if_pos hrej, hnEvents]
          exact ih (fun c hc => hcs c (by simp [hc])) _ (by omega) hnext _ (hs'.of_frame rfl)
        · simp only [if_neg hrej]
          have hloop := eventLoop_ok hlo hnext hagg (by omega) hevt hn₂ (hfit _) board
            (hcs c (by simp)) (s.setDataFormat buf[pos + 1])
          have hframe' : SameBoard (run (eventStep u board c (resolveLayout dpp name buf[pos + 1]))
              (s.setDataFormat buf[pos + 1])
              (eventsOf (resolveLayout dpp name buf[pos + 1]) (slice buf (pos + 2) (n - 2)))).2.bd
              dpp name :=
            run_invariant (fun t => SameBoard t.bd dpp name)
              (fun t w _ ht => ht.of_frame (eventStep_frame u board c _ t w)) _ hs'
          have hnextLoop := ih (fun c hc => hcs c (by simp [hc])) (pos + n) (by omega) hnext _ hframe'
          rw [hloop, ok_bind, hnextLoop, ok_bind, pure_eq_ok]

theorem couples_lt {mask c : ℕ} (h : c ∈ couples mask) : c < 8 := by
  have hh := (List.mem_filter.mp h).1
  simpa using hh

theorem decodeAggregate_ok {buf : List Word} {offset aggLen : ℕ} {bd : BoardDec}
    (hagg : offset + aggLen ≤ buf.length) (haggLen : kAggHeaderWords ≤ aggLen)
    (hlen : buf.length < 2 ^ 30) (hsup : bd.supported = true) (board mask : ℕ) (tally : Tally) :
    decodeAggregate (unpackerOf bd) buf board mask offset aggLen ⟨bd, tally⟩ =
      .ok (run (coupleStep (unpackerOf bd) board) ⟨bd, tally⟩
        (coupleSegments bd.frame.dppType bd.frame.dgtzName (couples mask)
          (slice buf (offset + kAggHeaderWords) (aggLen - kAggHeaderWords)))) := by
  have htables : tables bd.frame.dppType bd.frame.dgtzName ≠ .none := by
    rw [bd.supported_eq] at hsup
    simpa [isSupported] using hsup
  have hloop := @coupleLoop_ok (unpackerOf bd) buf ⟨offset, offset + aggLen⟩ _ _ hagg hlen htables
    (fits_unpackerOf bd _ _) board (couples mask) (fun c hc => couples_lt hc)
    (offset + kAggHeaderWords) (Nat.le_add_right _ _) (Nat.add_le_add_left haggLen _) ⟨bd, tally⟩
    ⟨rfl, rfl⟩
  rw [decodeAggregate, add_ok (by omega), ok_bind, add_ok (by unfold kAggHeaderWords at *; omega),
    ok_bind, hloop]
  simp only [Nat.add_sub_add_left]

theorem segments_short {words : List Word} (h : words.length < kAggHeaderWords) :
    segments words = [] := by
  cases words with
  | nil => rw [segments]
  | cons w rest => rw [segments, if_pos (by simpa using h)]

theorem isSync_iff (w : Word) : isSync w = true ↔ w.toNat >>> 28 = 0xA := by
  rw [isSync, decide_eq_true_eq, Nat.shiftRight_eq_div_pow]

theorem aggLength_eq (w : Word) : w.toNat &&& 0x0FFFFFFF = aggLength w :=
  Nat.and_two_pow_sub_one_eq_mod w.toNat 28

theorem board_eq (w : Word) : (w.toNat &&& 0xF8000000) >>> 27 = w.toNat / 2 ^ 27 := by
  have hlt : w.toNat / 2 ^ 27 < 2 ^ 5 := by have h := w.isLt; omega
  rw [Nat.shiftRight_and_distrib, Nat.shiftRight_eq_div_pow,
    show (0xF8000000 : ℕ) >>> 27 = 2 ^ 5 - 1 by decide, Nat.and_two_pow_sub_one_eq_mod,
    Nat.mod_eq_of_lt hlt]

theorem mask_eq (w : Word) : w.toNat &&& 0xFF = w.toNat % 2 ^ 8 :=
  Nat.and_two_pow_sub_one_eq_mod w.toNat 8

theorem fail_eq (w : Word) (n m : ℕ) :
    (if (w.toNat >>> 26) &&& 0x1 ≠ 0 then n else m) = if bitAt w 26 then n else m := by
  have h := Nat.and_one_is_mod (w.toNat >>> 26)
  unfold bitAt
  by_cases hb : (w.toNat >>> 26) &&& 1 = 1
  · simp [hb]
  · have h₀ : (w.toNat >>> 26) &&& 1 = 0 := by omega
    simp [h₀]

theorem header_fields {buf : List Word} {offset n : ℕ} {w : Word} (hn : 2 ≤ n)
    (hw : buf[offset + 1]? = some w) (tally : Tally) :
    boardOf ((buf.drop offset).take n) = (w.toNat &&& 0xF8000000) >>> 27 ∧
      maskOf ((buf.drop offset).take n) = w.toNat &&& 0xFF ∧
      countFail tally (failOf ((buf.drop offset).take n)) =
        { tally with
          boardFail := if (w.toNat >>> 26) &&& 0x1 ≠ 0 then tally.boardFail + 1
            else tally.boardFail } := by
  have hget : (slice buf offset n)[1]? = some w := by rw [slice_getElem? (by omega), hw]
  have hhead : headWord ((buf.drop offset).take n) = w := by
    rw [headWord, List.getD_eq_getElem?_getD, ← slice, hget, Option.getD_some]
  exact ⟨by rw [boardOf, hhead, board_eq], by rw [maskOf, hhead, mask_eq],
    by rw [countFail, failOf, hhead, fail_eq]⟩

theorem decode_firmware (bd : BoardDec) (buf : List Word) (board mask offset aggLen : ℕ)
    (s : Bench) :
    (if bd.isPHA then decodePHA buf board mask offset aggLen s
      else decodePSD buf board mask offset aggLen s) =
      decodeAggregate (unpackerOf bd) buf board mask offset aggLen s := by
  unfold unpackerOf
  split <;> rfl

theorem walk_ok {buf : List Word} (hlen : buf.length < 2 ^ 30) (fuel offset : ℕ)
    (hoff : offset ≤ buf.length) (hfuel : buf.length - offset < fuel) (d : AggregateDecoder) :
    walk buf buf.length fuel offset d = .ok (run segmentStep d (segments (buf.drop offset))) := by
  induction fuel generalizing offset d with
  | zero => omega
  | succ fuel ih =>
    rw [walk, add_ok (by unfold kAggHeaderWords; omega), ok_bind]
    by_cases hend : offset + kAggHeaderWords ≤ buf.length
    · have hlt : offset + 4 ≤ buf.length := hend
      have h₀ : buf[offset]? = some buf[offset] := List.getElem?_eq_getElem (by omega)
      have h₁ : buf[offset + 1]? = some buf[offset + 1] := List.getElem?_eq_getElem (by omega)
      have hdrop : buf.drop offset = buf[offset] :: buf.drop (offset + 1) :=
        List.drop_eq_getElem_cons (by omega)
      have hrest : (buf.drop (offset + 1)).length + 1 = buf.length - offset := by
        rw [List.length_drop]
        omega
      have hnextWord := fun d => ih (offset + 1) (by omega) (by omega) d
      rw [if_pos hend, read_ok h₀, ok_bind, hdrop, segments, hrest,
        if_neg (show ¬buf.length - offset < kAggHeaderWords by unfold kAggHeaderWords; omega)]
      by_cases hsync : isSync buf[offset] = true
      · have hnib : ¬buf[offset].toNat >>> 28 ≠ 0xA := not_not.mpr ((isSync_iff _).mp hsync)
        rw [if_neg hnib, if_neg (show ¬(!isSync buf[offset]) = true by simp [hsync])]
        dsimp only
        rw [aggLength_eq]
        generalize hn : aggLength buf[offset] = n
        have hnlt : n < 2 ^ 28 := by
          rw [← hn]
          exact Nat.mod_lt _ (by decide)
        by_cases hbad : n < kAggHeaderWords
        · rw [if_pos hbad, dif_pos hbad, add_ok (by omega), ok_bind, hnextWord, run_cons]
          rfl
        · rw [if_neg hbad, dif_neg hbad, add_ok (by omega), ok_bind]
          by_cases hcut : buf.length < offset + n
          · rw [if_pos hcut, if_pos (by omega)]
            rfl
          · have hbad' : kAggHeaderWords ≤ n := Nat.le_of_not_lt hbad
            have hn₄ : 4 ≤ n := hbad'
            rw [if_neg hcut, if_neg (by omega), add_ok (by omega), ok_bind, read_ok h₁, ok_bind,
              ← hdrop, List.drop_drop, run_cons]
            have hnext := fun d => ih (offset + n) (by omega) (by omega) d
            have hfits : offset + n ≤ buf.length := Nat.le_of_not_lt hcut
            have hafter : ((buf.drop offset).take n).drop kAggHeaderWords =
                slice buf (offset + kAggHeaderWords) (n - kAggHeaderWords) := drop_slice
            obtain ⟨hboard, hmask, hfail⟩ := header_fields (n := n) (by omega) h₁ d.tally
            rw [← hfail, ← hboard, ← hmask, segmentStep]
            cases hb : d.boards (boardOf ((buf.drop offset).take n)) with
            | none =>
              dsimp only
              rw [hnext, List.nil_append]
            | some bd =>
              dsimp only
              by_cases hsup : bd.supported = true
              · have hagg := decodeAggregate_ok hfits hbad' hlen hsup
                  (boardOf ((buf.drop offset).take n)) (maskOf ((buf.drop offset).take n))
                  (countFail d.tally (failOf ((buf.drop offset).take n)))
                rw [if_pos hsup, if_pos hsup, decode_firmware, hagg, ok_bind, hnext, ok_bind,
                  couplesOf, hafter]
                rfl
              · rw [if_neg hsup, if_neg hsup, hnext, List.nil_append]
      · rw [if_pos (fun h => hsync ((isSync_iff _).mpr h)), if_pos (by simpa using hsync),
          add_ok (by omega), ok_bind, hnextWord]
    · rw [if_neg hend, segments_short (by rw [List.length_drop]; omega)]
      rfl

theorem wordsOf_length (data : List (BitVec 8)) : (wordsOf data).length = data.length / 4 := by
  induction data using wordsOf.induct with
  | case1 b₀ b₁ b₂ b₃ rest ih =>
    rw [wordsOf, List.length_cons, ih]
    simp only [List.length_cons]
    omega
  | case2 data h =>
    rcases data with _ | ⟨a, _ | ⟨b, _ | ⟨c, _ | ⟨d, rest⟩⟩⟩⟩
    · rfl
    · simp [wordsOf]
    · simp [wordsOf]
    · simp [wordsOf]
    · exact absurd rfl (h a b c d rest)

/-- What `decode` hands out is the meaning of the words of its buffer. -/
theorem decode_ok (d : AggregateDecoder) {data : List (BitVec 8)} (hdata : data.length < 2 ^ 32) :
    decode d data = .ok (decoded (decodeWords d (wordsOf data))) := by
  have hlength := wordsOf_length data
  have hmod : data.length / 4 % 2 ^ 32 = (wordsOf data).length := by
    rw [hlength]
    exact Nat.mod_eq_of_lt (by omega)
  have hwalk := @walk_ok (wordsOf data) (by omega) ((wordsOf data).length + 1) 0
    (Nat.zero_le _) (by omega) d
  unfold decode
  rw [hmod]
  simp only [hwalk, ok_bind, pure_eq_ok, List.drop_zero, decodeWords, decoded]

/-- No buffer takes the decoder out of it: whatever the content, the registered boards
and the state the decoder is in, the checked walk ends without a fault. -/
theorem decode_never_faults (d : AggregateDecoder) (data : List (BitVec 8))
    (hdata : data.length < 2 ^ 32) : ∃ r, decode d data = .ok r :=
  ⟨_, decode_ok d hdata⟩

/-- An aggregate that announces more channel aggregates than it holds. -/
theorem decode_never_faults_short :
    ∃ r, decode (registerBoard {} 0 .psd "DT5730" 2000)
      [0x05, 0, 0, 0xA0, 0xFF, 0, 0, 0, 0, 0, 0, 0, 0, 0, 0, 0, 0xFF, 0xFF, 0xFF, 0xFF] = .ok r :=
  decode_never_faults (registerBoard {} 0 .psd "DT5730" 2000)
    [0x05, 0, 0, 0xA0, 0xFF, 0, 0, 0, 0, 0, 0, 0, 0, 0, 0, 0, 0xFF, 0xFF, 0xFF, 0xFF] (by decide)

end DecoderRefinement
end CaenDaq
