import CaenDaq.AggregateStream

/-!
# One time line for all channels of a board

A board counts on one clock and sends the low bits of its count, 31 or 47 of them as
the format word of the channel aggregate says. `unwrap` restores the count from one
epoch counter. An epoch of a 31-bit counter is not an epoch of a 47-bit one, so the
count comes back exactly where the two agree.
-/

namespace CaenDaq

namespace ChannelClock

/-- The event's own wrap count is, in 64 bits, the epoch the clock is in or a neighbour. -/
def InReach (c : ChannelClock) (width tick : ℕ) : Prop :=
  c.seen = true → ∃ e, c.epoch ≤ e + 1 ∧ e ≤ c.epoch + 1 ∧ e % 2 ^ (64 - width) = tick / 2 ^ width

variable {c : ChannelClock} {width tick : ℕ}

theorem place_eq_iff (hwidth : width < 64) (e : ℕ) :
    place (tick % 2 ^ width) (2 ^ width) e = tick ↔ e % 2 ^ (64 - width) = tick / 2 ^ width := by
  have hsplit : 2 ^ 64 = 2 ^ width * 2 ^ (64 - width) := by
    rw [← Nat.pow_add]
    congr 1
    omega
  have hpos : 0 < 2 ^ width := Nat.two_pow_pos width
  have hraw : tick % 2 ^ width < 2 ^ width := Nat.mod_lt _ hpos
  have hdiv : (tick % 2 ^ width + e * 2 ^ width) / 2 ^ width = e := by
    rw [Nat.add_mul_div_right _ _ hpos, Nat.div_eq_of_lt hraw, Nat.zero_add]
  have hmod : (tick % 2 ^ width + e * 2 ^ width) % 2 ^ width = tick % 2 ^ width := by
    rw [Nat.add_mul_mod_self_right, Nat.mod_mod]
  have hplace : place (tick % 2 ^ width) (2 ^ width) e =
      2 ^ width * (e % 2 ^ (64 - width)) + tick % 2 ^ width := by
    rw [place, hsplit, Nat.mod_mul, hdiv, hmod, Nat.add_comm]
  have hwhole := Nat.div_add_mod tick (2 ^ width)
  rw [hplace]
  constructor
  · intro h
    have heq : 2 ^ width * (e % 2 ^ (64 - width)) = 2 ^ width * (tick / 2 ^ width) := by omega
    exact Nat.eq_of_mul_eq_mul_left hpos heq
  · intro h
    rw [h]
    exact hwhole

/-- Two counts with the same low bits, both near a third, are one. -/
theorem eq_of_near {f m : ℕ} (hwidth : 31 ≤ width) (hmod : f % 2 ^ width = tick % 2 ^ width)
    (hf : distance f m < 2 ^ 30) (ht : tick < m + 2 ^ 30) (ht' : m < tick + 2 ^ 30) : f = tick := by
  have hpow : 2 ^ 31 ≤ 2 ^ width := Nat.pow_le_pow_right (by decide) hwidth
  have hf' : f < m + 2 ^ 30 ∧ m < f + 2 ^ 30 := by
    unfold distance at hf
    split at hf <;> omega
  rcases Nat.le_total f tick with h | h
  · have hdvd := Nat.dvd_of_mod_eq_zero (Nat.sub_mod_eq_zero_of_mod_eq hmod.symm)
    have hzero := Nat.eq_zero_of_dvd_of_lt hdvd (by omega)
    omega
  · have hdvd := Nat.dvd_of_mod_eq_zero (Nat.sub_mod_eq_zero_of_mod_eq hmod)
    have hzero := Nat.eq_zero_of_dvd_of_lt hdvd (by omega)
    omega

/-- Where an event lies near the clock's reference, `unwrap` finds its tick exactly if
the wrap count is in reach. -/
theorem unwrap_eq_iff (hwidth : 31 ≤ width) (hwidth' : width < 64) (hseen : c.seen = true)
    (ht : tick < c.reference + 2 ^ 30) (ht' : c.reference < tick + 2 ^ 30) :
    (c.unwrap (tick % 2 ^ width) width).1 = tick ↔ InReach c width tick := by
  have hrange : ¬64 ≤ width := by omega
  have hne : 2 ^ width ≠ 0 := (Nat.two_pow_pos width).ne'
  have hfull : (c.unwrap (tick % 2 ^ width) width).1 =
      place (tick % 2 ^ width) (2 ^ width) (best c (tick % 2 ^ width) (2 ^ width)) := by
    simp only [unwrap, if_neg hrange, if_pos hne]
  rw [hfull]
  constructor
  · intro h _
    obtain ⟨hlo, hhi⟩ := best_neighbour c (tick % 2 ^ width) (2 ^ width)
    exact ⟨_, hlo, hhi, (place_eq_iff hwidth' _).mp h⟩
  · intro h
    obtain ⟨e, hlo, hhi, he⟩ := h hseen
    have hplace := (place_eq_iff hwidth' e).mpr he
    have hdist : distance (place (tick % 2 ^ width) (2 ^ width) e) c.reference < 2 ^ 30 := by
      rw [hplace]
      unfold distance
      split <;> omega
    obtain ⟨_, hbest⟩ := best_near (mem_candidates.mpr ⟨hseen, hlo, hhi⟩) hdist (by decide)
    refine eq_of_near hwidth ?_ hbest ht ht'
    have hdvd : 2 ^ width ∣ 2 ^ 64 := Nat.pow_dvd_pow 2 (by omega)
    rw [place, Nat.mod_mod_of_dvd _ hdvd, Nat.add_mul_mod_self_right, Nat.mod_mod]

theorem unwrap_first (hwidth : 31 ≤ width) (hwidth' : width < 64) (ht : tick < 2 ^ 31) :
    (({} : ChannelClock).unwrap (tick % 2 ^ width) width).1 = tick := by
  have hpow : 2 ^ 31 ≤ 2 ^ width := Nat.pow_le_pow_right (by decide) hwidth
  have hraw : tick % 2 ^ width = tick := Nat.mod_eq_of_lt (by omega)
  have hrange : ¬64 ≤ width := by omega
  have hne : 2 ^ width ≠ 0 := (Nat.two_pow_pos width).ne'
  simp only [unwrap, if_neg hrange, if_pos hne, hraw]
  show (tick + 0 * 2 ^ width) % 2 ^ 64 = tick
  rw [Nat.zero_mul, Nat.add_zero]
  exact Nat.mod_eq_of_lt (by omega)

end ChannelClock
namespace Timeline

open Checked Transducer DataFrame AggregateDecoder AggregateStream

/-- An event of a board: the format word of its channel aggregate, its couple, its words,
and the count of the board's clock when it happened. -/
structure BoardEvent where
  form : Word
  couple : ℕ
  words : List Word
  tick : ℕ

def rawOf (u : Unpacker) (board : ℕ) (layout : DataLayout) (e : BoardEvent) : ℕ :=
  (untimed u board e.couple layout e.words).timestamp

/-- One event of a board: the tick count `setTime` gives it, and the board afterwards. -/
def tickStep (u : Unpacker) (board : ℕ) (s : Bench) (e : BoardEvent) : List ℕ × Bench :=
  let s := s.setDataFormat e.form
  let layout := s.bd.frame.layout
  ([(s.bd.clock.unwrap (rawOf u board layout e) (widthOf u layout e.words)).1],
    (eventStep u board e.couple layout s e.words).2)

/-- The tick count is what an event's time is made of. -/
theorem eventStep_timePs (u : Unpacker) (board couple : ℕ) {layout : DataLayout}
    (hts : layout.hasTS = true) (s : Bench) (hps : s.bd.psPerTick ≠ 0) (words : List Word) :
    ∀ e ∈ (eventStep u board couple layout s words).1, e.timePs =
      toInt64 ((s.bd.clock.unwrap (untimed u board couple layout words).timestamp
        (widthOf u layout words)).1 * s.bd.psPerTick) +
      if (extensionOf u layout words).fineBits > 0 then
        toInt64 (((extensionOf u layout words).fineTS * s.bd.psPerTick % 2 ^ 64) >>>
          (extensionOf u layout words).fineBits)
      else 0 := by
  intro e he
  have hbd := s.countIncomplete_bd (lacking u layout)
  obtain rfl := List.mem_singleton.mp he
  simp only [timed, hts, if_true, setTime, hbd, Bench.setClock, if_neg hps]

theorem eventStep_clock (u : Unpacker) (board couple : ℕ) {layout : DataLayout}
    (hts : layout.hasTS = true) (s : Bench) (words : List Word) :
    (eventStep u board couple layout s words).2.bd.clock =
      (s.bd.clock.unwrap (untimed u board couple layout words).timestamp
        (widthOf u layout words)).2 := by
  have hbd := s.countIncomplete_bd (lacking u layout)
  by_cases hps : s.bd.psPerTick = 0
  · simp only [eventStep, timed, hts, if_true, setTime, hbd, Bench.setClock, if_pos hps,
      Bench.setWave]
  · simp only [eventStep, timed, hts, if_true, setTime, hbd, Bench.setClock, if_neg hps,
      Bench.setWave]

theorem phaExtension_bits (layout : DataLayout) (w : Word) :
    (phaExtension layout w).extendedBits =
      if layout.hasExtras ∧ layout.extrasMode ≤ 2 then 16 else 0 := by
  by_cases hx : layout.hasExtras = true
  · simp only [phaExtension, hx, if_true, true_and]
  · simp only [phaExtension, hx, Bool.false_eq_true, if_false, false_and]

theorem psdExtension_bits {layout : DataLayout} (hconfig : layout.extrasConfig = true) (w : Word) :
    (psdExtension layout w).extendedBits =
      if layout.hasExtras ∧ layout.extrasMode ≤ 2 then 16 else 0 := by
  by_cases hx : layout.hasExtras = true
  · simp only [psdExtension, hx, hconfig, if_true, true_and]
  · simp only [psdExtension, hx, Bool.false_eq_true, if_false, false_and]

/-- The counter width of an event of an x725/x730 board: 47 bits with an extended time
stamp, that is with extras mode 0, 1 or 2, and 31 bits otherwise. -/
theorem widthOf_x730 (bd : BoardDec) {name : String} (hname : isX730Family name = true)
    (dpp : Firmware) (form : Word) (words : List Word) :
    widthOf (unpackerOf bd) (resolveLayout dpp name form) words =
      if (resolveLayout dpp name form).hasExtras ∧ (resolveLayout dpp name form).extrasMode ≤ 2
      then 47 else 31 := by
  have hts : (resolveLayout dpp name form).tsBits = 31 := by
    cases dpp <;> simp [resolveLayout, tables, hname, format, produceFormats, rangeWidth]
  have hconfig : (resolveLayout dpp name form).extrasConfig = true := by
    cases dpp <;> simp [resolveLayout, tables, hname, produceConfigs]
  have hbits : ∀ w, ((unpackerOf bd).extension (resolveLayout dpp name form) w).extendedBits =
      if (resolveLayout dpp name form).hasExtras ∧ (resolveLayout dpp name form).extrasMode ≤ 2
      then 16 else 0 := by
    intro w
    rcases unpackerOf_cases bd with h | h <;> rw [h]
    · exact phaExtension_bits _ w
    · exact psdExtension_bits hconfig w
  rw [widthOf, extensionOf, hts, hbits]
  split <;> rfl

/-- The events of a board after a tick count of `m`, the largest so far. -/
def NearSoFar : ℕ → List ℕ → Prop
  | _, [] => True
  | m, t :: ts => (t < m + 2 ^ 30 ∧ m < t + 2 ^ 30) ∧ NearSoFar (max m t) ts

/-- The counts of a board from the start of a run on: the first comes before the
narrowest counter wraps, and none is half its range or more from the largest before it. -/
def OnTimeLine : List ℕ → Prop
  | [] => True
  | t :: ts => t < 2 ^ 31 ∧ NearSoFar t ts

/-- The event was sent by a board of this firmware and model: it has a time word, and
the counter value in it is the low bits of the tick count. -/
structure SentBy (u : Unpacker) (board : ℕ) (dpp : Firmware) (name : String) (e : BoardEvent) :
    Prop where
  hasTS : (resolveLayout dpp name e.form).hasTS = true
  raw : rawOf u board (resolveLayout dpp name e.form) e =
    e.tick % 2 ^ widthOf u (resolveLayout dpp name e.form) e.words

def EventInReach (u : Unpacker) (s : Bench) (e : BoardEvent) : Prop :=
  s.bd.clock.InReach (widthOf u (s.setDataFormat e.form).bd.frame.layout e.words) e.tick

section Run

variable {bd₀ : BoardDec} {board : ℕ} {dpp : Firmware} {name : String}

theorem tickStep_spec (hname : isX730Family name = true) {s : Bench}
    (hdpp : s.bd.frame.dppType = dpp) (hframe : s.bd.frame.dgtzName = name) {e : BoardEvent}
    (he : SentBy (unpackerOf bd₀) board dpp name e) :
    ∃ w, (w = 31 ∨ w = 47) ∧
      (EventInReach (unpackerOf bd₀) s e ↔ s.bd.clock.InReach w e.tick) ∧
      (tickStep (unpackerOf bd₀) board s e).1 = [(s.bd.clock.unwrap (e.tick % 2 ^ w) w).1] ∧
      (tickStep (unpackerOf bd₀) board s e).2.bd.clock =
        (s.bd.clock.unwrap (e.tick % 2 ^ w) w).2 ∧
      (tickStep (unpackerOf bd₀) board s e).2.bd.frame.dppType = dpp ∧
      (tickStep (unpackerOf bd₀) board s e).2.bd.frame.dgtzName = name := by
  have hlayout : (s.setDataFormat e.form).bd.frame.layout = resolveLayout dpp name e.form := by
    rw [← hdpp, ← hframe]
    exact setDataFormat_layout _ _
  refine ⟨_, ?_, by rw [EventInReach, hlayout], ?_, ?_, ?_, ?_⟩
  · rw [widthOf_x730 bd₀ hname]
    split
    · exact Or.inr rfl
    · exact Or.inl rfl
  · simp only [tickStep, hlayout, he.raw]
    rfl
  · have hclock := eventStep_clock (unpackerOf bd₀) board e.couple he.hasTS (s.setDataFormat e.form)
      e.words
    rw [← he.raw]
    simp only [tickStep, hlayout]
    exact hclock
  · simp only [tickStep, eventStep_frame]
    exact (setDataFormat_dppType _ _).trans hdpp
  · simp only [tickStep, eventStep_frame]
    exact (setDataFormat_dgtzName _ _).trans hframe

/-- Once a board has sent an event, the rest of the run is restored exactly if every
event of it is in reach of the clock it arrives at. -/
theorem run_restores_iff (hname : isX730Family name = true) {s : Bench} {m : ℕ}
    (hdpp : s.bd.frame.dppType = dpp) (hframe : s.bd.frame.dgtzName = name)
    (hseen : s.bd.clock.seen = true) (href : s.bd.clock.reference = m) {events : List BoardEvent}
    (hsent : ∀ e ∈ events, SentBy (unpackerOf bd₀) board dpp name e)
    (hnear : NearSoFar m (events.map BoardEvent.tick)) :
    (run (tickStep (unpackerOf bd₀) board) s events).1 = events.map BoardEvent.tick ↔
      Along (tickStep (unpackerOf bd₀) board) (EventInReach (unpackerOf bd₀)) s events := by
  induction events generalizing s m with
  | nil => exact ⟨fun _ => trivial, fun _ => rfl⟩
  | cons e events ih =>
    obtain ⟨w, hw, hreach, hout, hclock, hdpp', hframe'⟩ :=
      tickStep_spec hname hdpp hframe (hsent e (by simp))
    obtain ⟨⟨hlo, hhi⟩, hrest⟩ := hnear
    have htick := @ChannelClock.unwrap_eq_iff s.bd.clock w e.tick (by omega) (by omega) hseen
      (by omega) (by omega)
    obtain ⟨hseen', href'⟩ := ChannelClock.unwrap_reference s.bd.clock (e.tick % 2 ^ w) w
    rw [run_cons, hout, List.map_cons, List.singleton_append, List.cons.injEq, htick, Along, hreach]
    constructor
    · rintro ⟨hin, hrun⟩
      rw [htick.mpr hin, href] at href'
      exact ⟨hin, (ih hdpp' hframe' (by rw [hclock, hseen']) (by rw [hclock, href'])
        (fun e he => hsent e (by simp [he])) hrest).mp hrun⟩
    · rintro ⟨hin, hrun⟩
      rw [htick.mpr hin, href] at href'
      exact ⟨hin, (ih hdpp' hframe' (by rw [hclock, hseen']) (by rw [hclock, href'])
        (fun e he => hsent e (by simp [he])) hrest).mpr hrun⟩

end Run

/-- From the start of a run, the tick counts of an x725/x730 board come back exactly if
every event's own wrap count is within one of the epoch the clock is in. -/
theorem ticks_restored_iff {bd : BoardDec} (hname : isX730Family bd.frame.dgtzName = true)
    (hclock : bd.clock = {}) (board : ℕ) (tally : Tally) {events : List BoardEvent}
    (hsent : ∀ e ∈ events,
      SentBy (unpackerOf bd) board bd.frame.dppType bd.frame.dgtzName e)
    (htime : OnTimeLine (events.map BoardEvent.tick)) :
    (run (tickStep (unpackerOf bd) board) ⟨bd, tally⟩ events).1 = events.map BoardEvent.tick ↔
      Along (tickStep (unpackerOf bd) board) (EventInReach (unpackerOf bd)) ⟨bd, tally⟩ events := by
  cases events with
  | nil => exact ⟨fun _ => trivial, fun _ => rfl⟩
  | cons e events =>
    obtain ⟨w, hw, hreach, hout, hstep, hdpp, hframe⟩ :=
      @tickStep_spec bd board _ _ hname ⟨bd, tally⟩ rfl rfl e (hsent e (by simp))
    obtain ⟨hfirst, hrest⟩ := htime
    have hstep₀ : bd.clock.unwrap (e.tick % 2 ^ w) w =
        ({} : ChannelClock).unwrap (e.tick % 2 ^ w) w := by rw [hclock]
    have htick : (bd.clock.unwrap (e.tick % 2 ^ w) w).1 = e.tick := by
      rw [hstep₀]
      exact ChannelClock.unwrap_first (by omega) (by omega) hfirst
    obtain ⟨hseen, href⟩ := ChannelClock.unwrap_reference bd.clock (e.tick % 2 ^ w) w
    rw [htick, hclock] at href
    have hin : bd.clock.InReach w e.tick := by
      intro hfresh
      rw [hclock] at hfresh
      cases hfresh
    have hrun := @run_restores_iff bd board _ _ hname _ e.tick hdpp hframe (by rw [hstep, hseen])
      (by rw [hstep, hclock, href]; exact Nat.zero_max e.tick) events
      (fun e he => hsent e (by simp [he])) hrest
    rw [run_cons, hout, List.map_cons, List.singleton_append, List.cons.injEq, Along, hreach]
    exact ⟨fun h => ⟨hin, hrun.mp h.2⟩, fun h => ⟨htick, hrun.mpr h.2⟩⟩

/-- Three 47-bit counts of a V1730, then a 31-bit one: by then the board's own count has
wrapped twice at 31 bits, while the clock is still in its first epoch. -/
def mixedEvents : List BoardEvent :=
  [⟨0x70000000#32, 0, [0x7FFFFFFF#32, 0x00000000#32, 0x00000100#32], 2 ^ 31 - 1⟩,
    ⟨0x70000000#32, 0, [0x3FFFFFFE#32, 0x00010000#32, 0x00000100#32], 2 ^ 31 + 2 ^ 30 - 2⟩,
    ⟨0x70000000#32, 0, [0x7FFFFFFD#32, 0x00010000#32, 0x00000100#32], 2 ^ 32 - 3⟩,
    ⟨0x60000000#32, 1, [0x3FFFFFFC#32, 0x00000100#32], 5 * 2 ^ 30 - 4⟩]

def mixedBoard : BoardDec := newBoard .pha "V1730" 2000

theorem mixedEvents_sent : ∀ e ∈ mixedEvents,
    SentBy (unpackerOf mixedBoard) 0 mixedBoard.frame.dppType mixedBoard.frame.dgtzName e := by
  intro e he
  simp only [mixedEvents, List.mem_cons, List.not_mem_nil, or_false] at he
  rcases he with rfl | rfl | rfl | rfl <;> exact ⟨by decide, by decide⟩

theorem mixedEvents_onTimeLine : OnTimeLine (mixedEvents.map BoardEvent.tick) := by
  simp [mixedEvents, OnTimeLine, NearSoFar]

/-- Channels of different counter widths do not share one time line. -/
theorem mixed_widths_misplaced :
    ¬∀ (bd : BoardDec) (board : ℕ) (tally : Tally) (events : List BoardEvent),
      isX730Family bd.frame.dgtzName = true → bd.clock = {} →
      (∀ e ∈ events, SentBy (unpackerOf bd) board bd.frame.dppType bd.frame.dgtzName e) →
      OnTimeLine (events.map BoardEvent.tick) →
      (run (tickStep (unpackerOf bd) board) ⟨bd, tally⟩ events).1 = events.map BoardEvent.tick := by
  intro h
  have hrun := h mixedBoard 0 {} mixedEvents (by decide) rfl mixedEvents_sent mixedEvents_onTimeLine
  exact absurd hrun (by decide)

theorem ticks_restored_iff_mixed :
    (run (tickStep (unpackerOf mixedBoard) 0) ⟨mixedBoard, {}⟩ mixedEvents).1 =
        mixedEvents.map BoardEvent.tick ↔
      Along (tickStep (unpackerOf mixedBoard) 0) (EventInReach (unpackerOf mixedBoard))
        ⟨mixedBoard, {}⟩ mixedEvents :=
  ticks_restored_iff (by decide) rfl 0 {} mixedEvents_sent mixedEvents_onTimeLine

end Timeline
end CaenDaq
