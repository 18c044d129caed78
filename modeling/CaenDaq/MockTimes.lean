import CaenDaq.BoardIsolation
import CaenDaq.MockRoundTrip
import CaenDaq.NearestEpoch

/-!
# The times of the mock board

A mock board counts the ticks since its start and sends the low 31 bits of the count, which
come round every few seconds. What it sends in a run is followed here together with the whole
counts, and the decoder is shown to find these again.
-/

namespace CaenDaq
namespace MockDigitizer

open Transducer AggregateDecoder AggregateStream BoardStream BoardFormat StreamRoundTrip
open ChannelClock (OnTime unwrap_onTime isNearest_unique unwrap_reference)

def tickOf (t : EmitTimes) (e : ℕ) (lfsr : Word) : ℕ :=
  t.base + e / 2 * t.pairStep + if e % 2 = 1 then (hitDelay t lfsr).1 else 0

def ticksFrom (o : MockOptions) (t : EmitTimes) : ℕ → ℕ → Word → List ℕ
  | 0, _, _ => []
  | n + 1, e, lfsr => tickOf t e lfsr :: ticksFrom o t n (e + 1) (fabricateEvent o t e lfsr).2

def emissionTicks (s : MockDigitizer) : List ℕ :=
  let r := nextRand s.lfsr
  let nEvents := 8 + r.toNat % 24
  let f := if s.opt.failEvery ≠ 0 then nextRand r else r
  ticksFrom s.opt (emitTimes { s with nextEmit := s.nextEmit + period s.opt } nEvents) nEvents 0 f

/-- What the decoder is to make of an event. A tick is two nanoseconds. -/
def timedOf (board : ℕ) (x : MockEvent) (tick : ℕ) : DecodedEvent :=
  { decodedOf board x with timePs := 2000 * tick }

def hits (s : MockDigitizer) : List DecodedEvent :=
  List.zipWith (timedOf s.info.boardRegId) (emission s).events (emissionTicks s)

theorem fabricateValues_timestamp (dpp : DppType) (x : MockEvent) (lfsr : Word) :
    (fabricateValues dpp x lfsr).1.timestamp = x.timestamp := by
  unfold fabricateValues
  split <;> rfl

theorem fabricateEvent_timestamp (o : MockOptions) (t : EmitTimes) (e : ℕ) (lfsr : Word) :
    (fabricateEvent o t e lfsr).1.timestamp = tickOf t e lfsr % 2 ^ 31 := by
  rw [fabricateEvent, fabricateValues_timestamp, tickOf]
  split <;> rfl

theorem fabricateEvents_timestamps (o : MockOptions) (t : EmitTimes) (n e : ℕ) (lfsr : Word) :
    (fabricateEvents o t n e lfsr).1.map MockEvent.timestamp =
      (ticksFrom o t n e lfsr).map (· % 2 ^ 31) := by
  induction n generalizing e lfsr with
  | zero => rfl
  | succ n ih =>
    rw [fabricateEvents, ticksFrom, List.map_cons, List.map_cons, ih, fabricateEvent_timestamp]

theorem emission_timestamps (s : MockDigitizer) :
    (emission s).events.map MockEvent.timestamp = (emissionTicks s).map (· % 2 ^ 31) :=
  fabricateEvents_timestamps _ _ _ _ _

theorem hitDelay_le (t : EmitTimes) (lfsr : Word) : (hitDelay t lfsr).1 ≤ t.pairStep + 10 := by
  unfold hitDelay
  dsimp only
  split
  · exact Nat.le_add_left 10 _
  · have hpos : 0 < t.pairStep / 2 + 1 := Nat.succ_pos _
    have hmod := Nat.mod_lt (nextRand (nextRand lfsr)).toNat hpos
    dsimp only
    omega

theorem tickOf_bounds (t : EmitTimes) (e : ℕ) (lfsr : Word) :
    t.base ≤ tickOf t e lfsr ∧ tickOf t e lfsr ≤ t.base + (e / 2 + 1) * t.pairStep + 10 := by
  have hdelay := hitDelay_le t lfsr
  rw [tickOf, Nat.add_mul, Nat.one_mul]
  split <;> omega

theorem ticksFrom_bounds (o : MockOptions) (t : EmitTimes) {pairs : ℕ} (n : ℕ) {e : ℕ}
    (he : e + n ≤ 2 * pairs) (lfsr : Word) : ∀ tick ∈ ticksFrom o t n e lfsr,
      t.base ≤ tick ∧ tick ≤ t.base + pairs * t.pairStep + 10 := by
  induction n generalizing e lfsr with
  | zero => exact fun _ h => absurd h List.not_mem_nil
  | succ n ih =>
    intro tick htick
    rcases List.mem_cons.mp htick with rfl | htick
    · obtain ⟨hlow, hhigh⟩ := tickOf_bounds t e lfsr
      have hpair : (e / 2 + 1) * t.pairStep ≤ pairs * t.pairStep :=
        Nat.mul_le_mul_right _ (by omega)
      exact ⟨hlow, by omega⟩
    · exact ih (by omega) _ tick htick

/-- The ticks that the aggregates cover before the one that is next. -/
def elapsed (o : MockOptions) (count : ℕ) : ℕ := count * period o / 2 - period o / 2

/-- More ticks than any aggregate takes: half a second's nanoseconds and a few. -/
def kSpan : ℕ := 500000016

theorem period_le (o : MockOptions) : period o ≤ 1000000000 := Nat.div_le_self _ _

theorem elapsed_step (o : MockOptions) (count : ℕ) :
    elapsed o count ≤ elapsed o (count + 1) ∧
      elapsed o (count + 1) ≤ elapsed o count + 500000000 := by
  have hperiod := period_le o
  unfold elapsed
  rw [Nat.add_mul, Nat.one_mul]
  omega

theorem elapsed_le (o : MockOptions) (count : ℕ) :
    2 * elapsed o (count + 1) ≤ count * period o + 1 := by
  unfold elapsed
  rw [Nat.add_mul, Nat.one_mul]
  omega

/-- Where the events of a read lie, for a board that has emitted `count` aggregates. -/
theorem emissionTicks_bounds {s : MockDigitizer} {count : ℕ}
    (hcount : s.nextEmit = s.started + count * period s.opt)
    (hroom : (count + 1) * period s.opt < 2 ^ 64) : ∀ tick ∈ emissionTicks s,
      elapsed s.opt (count + 1) ≤ tick ∧ tick ≤ elapsed s.opt (count + 1) + kSpan := by
  intro tick htick
  have hnow : (s.nextEmit + (period s.opt : ℤ) - s.started) % 2 ^ 64 =
      ((count + 1) * period s.opt : ℕ) := by
    have hlt : ((count + 1) * period s.opt : ℕ) < (2 ^ 64 : ℤ) := by exact_mod_cast hroom
    rw [hcount]
    refine Eq.trans ?_ (Int.emod_eq_of_lt (Int.natCast_nonneg _) hlt)
    congr 1
    push_cast
    ring
  have hperiod := period_le s.opt
  generalize hn : 8 + (nextRand s.lfsr).toNat % 24 = n at *
  have hsmall : n < 32 := by omega
  have hbase : (emitTimes { s with nextEmit := s.nextEmit + period s.opt } n).base =
      elapsed s.opt (count + 1) := by
    simp only [emitTimes, info, hnow, Int.toNat_natCast, elapsed]
    norm_num
    omega
  have hstep : (n + 1) / 2 *
      (emitTimes { s with nextEmit := s.nextEmit + period s.opt } n).pairStep ≤ 500000000 := by
    have hspan : period s.opt / 2 ≤ 500000000 := by omega
    have hmul := Nat.mul_div_le (period s.opt / 2) ((n + 1) / 2)
    show (n + 1) / 2 * (if period s.opt / 2 / ((n + 1) / 2) ≠ 0 then _ else _) ≤ _
    split
    · exact hmul.trans hspan
    · omega
  rw [emissionTicks, hn] at htick
  obtain ⟨hlow, hhigh⟩ :=
    @ticksFrom_bounds s.opt _ ((n + 1) / 2) n 0 (by omega) _ tick htick
  rw [hbase] at hlow hhigh
  unfold kSpan
  omega

theorem unwrap_tick {c : ChannelClock} {tick : ℕ} (hc : OnTime 31 c)
    (hroom : c.reference + 2 * 2 ^ 31 ≤ 2 ^ 64) (hnear : Nat.dist tick c.reference < 2 ^ 30) :
    (c.unwrap (tick % 2 ^ 31) 31).1 = tick ∧ OnTime 31 (c.unwrap (tick % 2 ^ 31) 31).2 ∧
      (c.unwrap (tick % 2 ^ 31) 31).2.reference = max c.reference tick := by
  obtain ⟨hnearest, hnext⟩ :=
    unwrap_onTime (by decide) hc hroom (Nat.mod_lt tick (Nat.two_pow_pos 31))
  have htick := isNearest_unique (by decide) hnearest hnear
  obtain ⟨_, href⟩ := unwrap_reference c (tick % 2 ^ 31) 31
  exact ⟨htick, hnext, by rw [href, htick]⟩

structure Sends (o : MockOptions) (x : SentEvent) (tick : ℕ) : Prop where
  family : x.family = familyOf o.dpp
  form : x.form = formWord o
  timestamp : x.meaning.timestamp = tick % 2 ^ 31

theorem counterBits_mock {o : MockOptions} (h : Short o) :
    Event.counterBits (familyOf o.dpp) (formWord o) = 31 ∧
      Event.fineBits (familyOf o.dpp) (formWord o) = 0 := by
  have hextras := extrasOn_mock (familyOf_cases o.dpp) h
  constructor
  · rw [Event.counterBits, Event.extensionBits, hextras, if_neg Bool.false_ne_true]
    rcases familyOf_cases o.dpp with hf | hf <;> rw [hf] <;> rfl
  · rw [Event.fineBits, Event.hasFine, hextras]
    rfl

theorem stamp_mock {o : MockOptions} (h : Short o) {x : SentEvent} {tick : ℕ} (hx : Sends o x tick)
    {c : ChannelClock} (hfound : (c.unwrap (tick % 2 ^ 31) 31).1 = tick)
    (hlong : 2000 * tick < 2 ^ 63) :
    stamp (2000, c) x = ([{ x.meaning with timePs := 2000 * tick }],
      (2000, (c.unwrap (tick % 2 ^ 31) 31).2)) := by
  obtain ⟨board, couple, family, form, event⟩ := x
  obtain ⟨rfl, rfl, htimestamp⟩ := hx
  obtain ⟨hbits, hfine⟩ := counterBits_mock h
  obtain ⟨_, hcounter⟩ := meaning_timePs event board couple
  have hraw : event.counter = tick % 2 ^ 31 := hcounter.symm.trans htimestamp
  have hps : toInt64 (tick * 2000) = 2000 * tick := by
    have hnat : (BitVec.ofNat 64 (tick * 2000)).toNat = 2000 * tick := by
      rw [BitVec.toNat_ofNat, Nat.mul_comm]
      exact Nat.mod_eq_of_lt (by omega)
    rw [toInt64, BitVec.toInt_eq_toNat_of_lt (by rw [hnat]; omega), hnat]
    rfl
  have htime : timeOf 2000 tick event.fine 0 = 2000 * tick := by
    rw [timeOf, if_neg (by decide), if_neg (by decide), hps, Int.add_zero]
  simp only [stamp, hbits, hfine, hraw, hfound, htime]

/-- A stretch of events, and a clock before them, within less than half the counter's range. -/
theorem run_stamps {o : MockOptions} (h : Short o) {lo hi : ℕ} (hwindow : hi < lo + 2 ^ 30)
    (hlong : 2000 * hi < 2 ^ 63) {xs : List SentEvent} {ticks : List ℕ}
    (hsends : List.Forall₂ (Sends o) xs ticks) (hticks : ∀ t ∈ ticks, lo ≤ t ∧ t ≤ hi)
    {c : ChannelClock} (hc : OnTime 31 c) (hlow : lo ≤ c.reference) (hhigh : c.reference ≤ hi) :
    ∃ c', run stamp (2000, c) xs =
        (List.zipWith (fun x tick => { x.meaning with timePs := 2000 * (tick : ℤ) }) xs ticks,
          (2000, c')) ∧
      OnTime 31 c' ∧ c'.reference ≤ hi ∧ c.reference ≤ c'.reference ∧
      ∀ t ∈ ticks, t ≤ c'.reference := by
  induction hsends generalizing c with
  | nil => exact ⟨c, rfl, hc, hhigh, Nat.le_refl _, fun _ h => absurd h List.not_mem_nil⟩
  | @cons x tick xs ticks hx _ ih =>
    obtain ⟨htick, hrest⟩ := List.forall_mem_cons.mp hticks
    have hnear : Nat.dist tick c.reference < 2 ^ 30 := by
      unfold Nat.dist
      omega
    obtain ⟨hfound, hnext, href⟩ := unwrap_tick hc (by omega) hnear
    obtain ⟨c', hrun, hc', hhigh', hgrows, hbelow⟩ :=
      ih hrest hnext (by omega) (by rw [href]; exact max_le hhigh htick.2)
    refine ⟨c', ?_, hc', hhigh', by omega, List.forall_mem_cons.mpr ⟨by omega, hbelow⟩⟩
    rw [run_cons, stamp_mock h hx hfound (by omega), hrun]
    rfl

theorem exists_emitted (s : MockDigitizer) (h : Short s.opt) :
    ∃ a : Aggregate, aggregateWords s (emission s) = a.words ∧ a.family = familyOf s.opt.dpp ∧
      a.board = s.info.boardRegId ∧
      List.Forall₂ (Sends s.opt) a.sent (emissionTicks s) ∧
      List.zipWith (fun x tick => { x.meaning with timePs := 2000 * (tick : ℤ) }) a.sent
        (emissionTicks s) = hits s := by
  obtain ⟨hcount, hmade, _⟩ := fabricate_events { s with nextEmit := s.nextEmit + period s.opt }
  obtain ⟨es, hwords, hmeaning⟩ := events_mock h hmade s.info.boardRegId
  have hes : (emission s).events.length = es.length := (length_of_map_eq hwords).symm
  have hlen : es.length < 32 := by
    have hbound : (emission s).events.length < 32 := by
      rw [emission, hcount]
      omega
    exact hes ▸ hbound
  have hsent : (toAggregate h hlen (emission s).fail).sent.map SentEvent.meaning =
      (emission s).events.map (decodedOf s.info.boardRegId) :=
    (toAggregate_sent h hlen (emission s).fail).trans hmeaning
  have hforms : ∀ x ∈ (toAggregate h hlen (emission s).fail).sent,
      x.family = familyOf s.opt.dpp ∧ x.form = formWord s.opt := by
    intro x hx
    obtain ⟨xs, hxs, hx⟩ := List.mem_flatten.mp hx
    obtain ⟨_, _, rfl⟩ := List.mem_map.mp hxs
    obtain ⟨_, _, rfl⟩ := List.mem_map.mp hx
    exact ⟨rfl, rfl⟩
  have hstamps : (toAggregate h hlen (emission s).fail).sent.map (·.meaning.timestamp) =
      (emissionTicks s).map (· % 2 ^ 31) := by
    rw [← emission_timestamps]
    have hfields := congrArg (List.map DecodedEvent.timestamp) hsent
    rwa [List.map_map, List.map_map] at hfields
  have hcounts : List.Forall₂ (fun x tick => x.meaning.timestamp = tick % 2 ^ 31)
      (toAggregate h hlen (emission s).fail).sent (emissionTicks s) := by
    rw [← List.forall₂_map_right_iff, ← List.forall₂_map_left_iff, hstamps]
    exact List.forall₂_refl _
  refine ⟨toAggregate h hlen (emission s).fail, aggregateWords_mock h hlen hes hwords, rfl, rfl,
    ?_, ?_⟩
  · refine ((List.forall₂_and_left _ _).mpr ⟨hforms, hcounts⟩).imp ?_
    rintro x tick ⟨⟨hfamily, hform⟩, htimestamp⟩
    exact ⟨hfamily, hform, htimestamp⟩
  · have hzip : List.zipWith (fun m tick => { m with timePs := 2000 * (tick : ℤ) })
        ((toAggregate h hlen (emission s).fail).sent.map SentEvent.meaning) (emissionTicks s) =
          hits s := by
      rw [hsent, List.zipWith_map_left]
      rfl
    rwa [List.zipWith_map_left] at hzip

def readStep (s : MockDigitizer) (now : ℤ) : List (List (BitVec 8)) × MockDigitizer :=
  ((read s now).1.toList, (read s now).2)

def hitStep (s : MockDigitizer) (now : ℤ) : List DecodedEvent × MockDigitizer :=
  (if (read s now).1.isSome then hits s else [], (read s now).2)

def Emitted (s : MockDigitizer) (count : ℕ) : Prop := s.nextEmit = s.started + count * period s.opt

theorem read_cases (s : MockDigitizer) (now : ℤ) : read s now = (none, s) ∨
    (read s now).1 = some (bytesOf (aggregateWords s (emission s))) ∧ (read s now).2.opt = s.opt ∧
      ∀ count, Emitted s count → Emitted (read s now).2 (count + 1) := by
  unfold read
  split
  · exact .inl rfl
  · split
    · exact .inl rfl
    · refine .inr ⟨rfl, rfl, fun count hcount => ?_⟩
      show s.nextEmit + (period s.opt : ℤ) = s.started + ((count + 1 : ℕ) : ℤ) * period s.opt
      rw [hcount]
      push_cast
      ring

theorem exists_tick (s : MockDigitizer) : ∃ tick, tick ∈ emissionTicks s := by
  rw [emissionTicks, Nat.add_comm]
  exact ⟨_, List.mem_cons_self⟩

def untimed (e : DecodedEvent) : DecodedEvent := { e with timePs := 0 }

theorem untimed_stamped {o : MockOptions} {xs : List SentEvent} {ticks : List ℕ}
    (h : List.Forall₂ (Sends o) xs ticks) :
    (List.zipWith (fun x tick => { x.meaning with timePs := 2000 * (tick : ℤ) }) xs ticks).map
      untimed = xs.map SentEvent.meaning := by
  induction h with
  | nil => rfl
  | @cons x tick xs ticks _ _ ih =>
    have hzero : untimed { x.meaning with timePs := 2000 * (tick : ℤ) } = x.meaning := by
      obtain ⟨hz, _⟩ := meaning_timePs x.event x.board x.couple
      show ({ x.meaning with timePs := 0 } : DecodedEvent) = x.meaning
      rw [← hz]
      rfl
    rw [List.zipWith_cons_cons, List.map_cons, List.map_cons, ih, hzero]

/-- The blocks of some reads are aggregates with the events that were made up. A clock on time
finds the whole counts as long as they fit in 64 bits of ps. -/
theorem run_emits {o : MockOptions} (h : Short o) {s : MockDigitizer} (hopt : s.opt = o)
    (nows : List ℤ) :
    ∃ as : List Aggregate, (run readStep s nows).1 = as.map (fun a => bytesOf a.words) ∧
      (∀ a ∈ as, a.family = familyOf o.dpp ∧ a.board = s.info.boardRegId) ∧
      (as.map Aggregate.sent).flatten.map SentEvent.meaning =
        (run hitStep s nows).1.map untimed ∧
      ∀ (count : ℕ) (c : ChannelClock), Emitted s count →
        1000 * ((count + as.length) * period o) + 2 ^ 41 ≤ 2 ^ 63 → OnTime 31 c →
        elapsed o count ≤ c.reference → c.reference ≤ elapsed o count + kSpan →
        (run stamp (2000, c) (as.map Aggregate.sent).flatten).1 = (run hitStep s nows).1 := by
  induction nows generalizing s with
  | nil => exact ⟨[], rfl, fun _ h => absurd h List.not_mem_nil, rfl, fun _ _ _ _ _ _ _ => rfl⟩
  | cons now nows ih =>
    subst hopt
    rw [run_cons, run_cons]
    rcases read_cases s now with hnone | ⟨hsome, hopt, hnext⟩
    · obtain ⟨as, hblocks, hboard, hmeaning, hevents⟩ := ih rfl
      simp only [readStep, hitStep, hnone]
      exact ⟨as, hblocks, hboard, hmeaning, hevents⟩
    · obtain ⟨a, hwords, hfamily, hboard, hsends, hhits⟩ := exists_emitted s h
      obtain ⟨as, hblocks, hboards, hmeaning, hevents⟩ := ih hopt
      have hinfo : (read s now).2.info.boardRegId = s.info.boardRegId := by
        simp only [info, hopt]
      simp only [readStep, hitStep, hsome, hwords, Option.toList_some, Option.isSome_some, if_true]
      refine ⟨a :: as, ?_, List.forall_mem_cons.mpr ⟨⟨hfamily, hboard⟩, ?_⟩, ?_,
        fun count c hcount hlong hc hlow hhigh => ?_⟩
      · show _ :: (run readStep (read s now).2 nows).1 = _
        rw [hblocks]
        rfl
      · rwa [hinfo] at hboards
      · rw [List.map_cons, List.flatten_cons, List.map_append, List.map_append, hmeaning, ← hhits,
          untimed_stamped hsends]
      · obtain ⟨hup, hstep⟩ := elapsed_step s.opt count
        have hle := elapsed_le s.opt count
        rw [List.length_cons] at hlong
        have hlater : (count + 1 + as.length) * period s.opt =
            (count + (as.length + 1)) * period s.opt := by
          congr 1
          omega
        have hnow : (count + 1) * period s.opt ≤ (count + (as.length + 1)) * period s.opt :=
          Nat.mul_le_mul_right _ (by omega)
        have hbefore : count * period s.opt ≤ (count + 1) * period s.opt :=
          Nat.mul_le_mul_right _ (Nat.le_succ count)
        have hbounds := emissionTicks_bounds hcount (by omega)
        obtain ⟨c', hrun, hc', hhigh', _, hbelow⟩ :=
          @run_stamps s.opt h (elapsed s.opt count) (elapsed s.opt (count + 1) + kSpan)
            (by unfold kSpan; omega) (by unfold kSpan; omega) _ _ hsends
            (fun t ht => ⟨hup.trans (hbounds t ht).1, (hbounds t ht).2⟩) _ hc hlow (by omega)
        obtain ⟨tick, htick⟩ := exists_tick s
        have hrest := hevents (count + 1) c' (hnext count hcount) (by omega) hc'
          ((hbounds tick htick).1.trans (hbelow tick htick)) hhigh'
        rw [List.map_cons, List.flatten_cons, run_append, hrun, hhits, hrest]

theorem payload_complete (a : Aggregate) : payload [complete a] = bytesOf a.words := by
  show bytesOf (a.words ++ []) = bytesOf a.words
  rw [List.append_nil]

theorem bytesOf_short (a : Aggregate) : (bytesOf a.words).length < 2 ^ 32 := by
  have hfits : a.length < 2 ^ 28 := a.fits
  rw [bytesOf_length, a.words_length]
  omega

theorem decodeBlocks_aggregates {d : AggregateDecoder} {as : List Aggregate}
    (h : ∀ a ∈ as, Registered d a) :
    ∃ r, decodeBlocks d (as.map fun a => bytesOf a.words) = .ok r ∧
      r.events =
        (run (keyed SentEvent.board stamp) (timebase d) (as.map Aggregate.sent).flatten).1 := by
  have hblocks : (as.map fun a => bytesOf a.words) =
      (as.map fun a => [complete a]).map payload := by
    rw [List.map_map]
    exact List.map_congr_left fun a _ => (payload_complete a).symm
  have hsize : ∀ bs ∈ as.map fun a => [complete a], (payload bs).length < 2 ^ 32 := by
    intro bs hbs
    obtain ⟨a, _, rfl⟩ := List.mem_map.mp hbs
    rw [payload_complete]
    exact bytesOf_short a
  have hflat : (as.map fun a => [complete a]).flatten = as.map complete := by
    rw [← List.flatMap_def, List.map_eq_flatMap]
  have hwords : decodeWords d (stream (as.map complete)) =
      run segmentStep d (as.map fun a => .aggregate a.words) := by
    rw [decodeWords, segments_stream_only, List.map_map]
    rfl
  obtain ⟨hevents, _⟩ := run_aggregates as h
  refine ⟨_, by rw [hblocks]; exact BoardIsolation.decodeBlocks_payload d hsize, ?_⟩
  rw [hflat, hwords]
  exact hevents

theorem decodeBlocks_mock {s : MockDigitizer} (hdpp : s.opt.dpp = .pha ∨ s.opt.dpp = .psd)
    (d : AggregateDecoder) {as : List Aggregate}
    (h : ∀ a ∈ as, a.family = familyOf s.opt.dpp ∧ a.board = s.info.boardRegId) :
    ∃ r, decodeBlocks (registerBoardInfo d s.info) (as.map fun a => bytesOf a.words) = .ok r ∧
      r.events.map untimed = (as.map Aggregate.sent).flatten.map SentEvent.meaning ∧
      r.events = (run stamp (2000, {}) (as.map Aggregate.sent).flatten).1 := by
  have hregistered : ∀ a ∈ as, Registered (registerBoardInfo d s.info) a := fun a ha =>
    registered_mock hdpp d (h a ha).1 (h a ha).2
  obtain ⟨r, hdecode, hall⟩ := decodeBlocks_aggregates hregistered
  have hkeys : ∀ x ∈ (as.map Aggregate.sent).flatten, x.board = s.info.boardRegId := by
    intro x hx
    obtain ⟨xs, hxs, hx⟩ := List.mem_flatten.mp hx
    obtain ⟨a, ha, rfl⟩ := List.mem_map.mp hxs
    exact (sent_board hx).trans (h a ha).2
  have htime : timebase (registerBoardInfo d s.info) s.info.boardRegId = (2000, {}) := by
    rw [timebase, BoardIsolation.registerBoardInfo_boards, if_pos rfl]
    rfl
  refine ⟨r, hdecode, ?_, ?_⟩
  · rw [hall]
    exact run_stamp_fields _ _
  · rw [hall, run_keyed hkeys, htime]

theorem start_emits {s : MockDigitizer} (hshort : Short s.opt) (now : ℤ) (nows : List ℤ) :
    ∃ as : List Aggregate,
      (run readStep (start s now) nows).1 = as.map (fun a => bytesOf a.words) ∧
      (∀ a ∈ as, a.family = familyOf s.opt.dpp ∧ a.board = s.info.boardRegId) ∧
      (as.map Aggregate.sent).flatten.map SentEvent.meaning =
        (run hitStep (start s now) nows).1.map untimed ∧
      (1000 * (as.length * period s.opt) + 2 ^ 41 ≤ 2 ^ 63 →
        (run stamp (2000, {}) (as.map Aggregate.sent).flatten).1 =
          (run hitStep (start s now) nows).1) := by
  have hcount : Emitted (start s now) 0 := by
    show now = now + ((0 : ℕ) : ℤ) * _
    rw [Nat.cast_zero, Int.zero_mul, Int.add_zero]
  have hfresh : OnTime 31 {} := ⟨rfl, fun _ => rfl⟩
  have hzero : elapsed s.opt 0 = 0 := by
    rw [elapsed, Nat.zero_mul, Nat.zero_div, Nat.zero_sub]
  obtain ⟨as, hblocks, hboards, hmeaning, htimes⟩ := run_emits hshort (s := start s now) rfl nows
  refine ⟨as, hblocks, hboards, hmeaning, fun hlong => ?_⟩
  exact htimes 0 {} hcount (by rwa [Nat.zero_add]) hfresh (by rw [hzero]) (Nat.zero_le _)

/-- The time stamps of a mock run never slip: however the board is read and however long it
takes, as long as the aggregates that it emits cover no more than 2⁶³ ps, less 2⁴¹, a decoder
that knows the board gives every event that the reads bring the whole count at which it
happened, in ps. -/
theorem mock_times (s : MockDigitizer) (now : ℤ) (hdpp : s.opt.dpp = .pha ∨ s.opt.dpp = .psd)
    (hshort : Short s.opt) (nows : List ℤ)
    (hlong : 1000 * ((run readStep (start s now) nows).1.length * period s.opt) + 2 ^ 41 ≤ 2 ^ 63)
    (d : AggregateDecoder) :
    ∃ r, decodeBlocks (registerBoardInfo d s.info) (run readStep (start s now) nows).1 = .ok r ∧
      r.events = (run hitStep (start s now) nows).1 := by
  obtain ⟨as, hblocks, hboards, _, htimes⟩ := start_emits hshort now nows
  obtain ⟨r, hdecode, _, hevents⟩ := decodeBlocks_mock hdpp d hboards
  rw [hblocks, List.length_map] at hlong
  exact ⟨r, by rw [hblocks]; exact hdecode, hevents.trans (htimes hlong)⟩

/-- One aggregate a second, read five times and once too early: the 31-bit counter comes
round before the last. -/
def secondMock : MockDigitizer := openBoard (construct { ratePerSec := 1, boardId := 3 })

def secondReads : List ℤ := [7, 8, 1000000007, 2000000007, 3000000007, 4000000007, 5000000007]

theorem mock_times_second :
    (∃ e ∈ (run hitStep (start secondMock 7) secondReads).1, 2000 * 2 ^ 31 < e.timePs) ∧
      ∃ r, decodeBlocks (registerBoardInfo {} secondMock.info)
          (run readStep (start secondMock 7) secondReads).1 = .ok r ∧
        r.events = (run hitStep (start secondMock 7) secondReads).1 :=
  ⟨by decide +kernel, mock_times secondMock 7 (Or.inr rfl) (fun _ => by decide) secondReads
    (by decide +kernel) {}⟩

end MockDigitizer
end CaenDaq
