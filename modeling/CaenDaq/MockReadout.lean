import CaenDaq.FileDecode
import CaenDaq.Layered
import CaenDaq.MockTimes

/-!
# A run with mock boards

The readout with `MockDigitizer` as its boards: a read of a board is a read of the mock at some
reading of the clock. From the events that the mocks make up to those in the part files.
-/

namespace CaenDaq

/-- A readout of mock boards. The clock readings at which a board was read while it was
acquiring are kept. -/
structure MockReadout (n : ℕ) where
  base : Readout n
  boards : Fin n → MockDigitizer
  reads : Fin n → List ℤ := fun _ => []

inductive MockAction (n : ℕ)
  | base (a : Action n)
  | read (i : Fin n) (now : ℤ)
  | stopDevice (i : Fin n)

namespace MockReadout

open Checked Transducer AggregateDecoder BoardStream BoardFormat StreamRoundTrip
open FileAggregates FileDecode
open Readout (ofDaq step_takes readers_setReader setReader_same)
open MockDigitizer (readStep hitStep untimed Short period run_emits decodeBlocks_aggregates)

variable {n : ℕ}

/-- The board whose device has to be stopped before its reader is joined. -/
def stopsFirst (s : Readout n) : Action n → Option (Fin n)
  | .join =>
    match s.stopPc with
    | .joining i => if h : i < n then some ⟨i, h⟩ else none
    | _ => none
  | _ => none

/-- What a reader gets from its board: a buffer, or success with nothing pending. -/
def answer (m : MockDigitizer) (now : ℤ) : RawBlock := (m.read now).1.getD []

variable (cfg : WriterConfig)

def baseStep (s : MockReadout n) (a : Action n) : Option (MockReadout n) :=
  match a with
  | .read _ _ => none
  | a =>
    if (stopsFirst s.base a).any fun i => (s.boards i).running then none
    else (s.base.step cfg a).map fun base => { s with base := base }

def read (s : MockReadout n) (i : Fin n) (now : ℤ) : Option (MockReadout n) :=
  (s.base.step cfg (.read i (some (answer (s.boards i) now)))).map fun base =>
    { base := base
      boards := Function.update s.boards i ((s.boards i).read now).2
      reads := if (s.boards i).running then Function.update s.reads i (s.reads i ++ [now])
        else s.reads }

/-- `BoardRunner::stop` stops the device when it has told the reader. -/
def stopDevice (s : MockReadout n) (i : Fin n) : Option (MockReadout n) :=
  if s.base.stopPc = .joining i ∧ (s.boards i).running = true then
    some { s with boards := Function.update s.boards i (s.boards i).stop }
  else none

def step (s : MockReadout n) : MockAction n → Option (MockReadout n)
  | .base a => s.baseStep cfg a
  | .read i now => s.read cfg i now
  | .stopDevice i => s.stopDevice i

/-- The moment the first `start` of a `Daq` has returned. -/
def ofDaq (d : Daq) (boards : Fin d.runners.length → MockDigitizer) :
    MockReadout d.runners.length where
  base := .ofDaq d
  boards := boards

variable {cfg}

inductive Does (cfg : WriterConfig) (s : MockReadout n) : MockAction n → MockReadout n → Prop
  | base (a : Action n) (base : Readout n) (quiet : ∀ i answer, a ≠ .read i answer)
    (step : s.base.step cfg a = some base) : Does cfg s (.base a) { s with base := base }
  | read (i : Fin n) (now : ℤ) (base : Readout n)
    (step : s.base.step cfg (.read i (some (answer (s.boards i) now))) = some base) :
    Does cfg s (.read i now)
      { base := base
        boards := Function.update s.boards i ((s.boards i).read now).2
        reads := if (s.boards i).running then Function.update s.reads i (s.reads i ++ [now])
          else s.reads }
  | stopDevice (i : Fin n) : Does cfg s (.stopDevice i)
      { s with boards := Function.update s.boards i (s.boards i).stop }

theorem baseStep_does {s s' : MockReadout n} {a : Action n} (h : s.baseStep cfg a = some s') :
    Does cfg s (.base a) s' := by
  unfold baseStep at h
  split at h
  · cases h
  · next hquiet =>
    split at h
    · cases h
    · obtain ⟨base, hbase, rfl⟩ := Option.map_eq_some_iff.mp h
      exact .base a base hquiet hbase

theorem step_does {s s' : MockReadout n} {b : MockAction n} (h : s.step cfg b = some s') :
    Does cfg s b s' := by
  cases b with
  | base a => exact baseStep_does h
  | read i now =>
    obtain ⟨base, hbase, rfl⟩ := Option.map_eq_some_iff.mp h
    exact .read i now base hbase
  | stopDevice i =>
    change (if _ then _ else _) = _ at h
    split at h
    · cases h
      exact .stopDevice i
    · cases h

theorem read_running (m : MockDigitizer) (now : ℤ) : (m.read now).2.running = m.running := by
  unfold MockDigitizer.read
  split
  · rfl
  · split <;> rfl

theorem read_opt (m : MockDigitizer) (now : ℤ) : (m.read now).2.opt = m.opt := by
  rcases MockDigitizer.read_cases m now with hnone | ⟨_, hopt, _⟩
  · rw [hnone]
  · exact hopt

theorem step_opt {s s' : MockReadout n} {b : MockAction n} (h : s.step cfg b = some s')
    (j : Fin n) : (s'.boards j).opt = (s.boards j).opt := by
  have hset : ∀ {i : Fin n} {m : MockDigitizer}, m.opt = (s.boards i).opt →
      (Function.update s.boards i m j).opt = (s.boards j).opt := by
    intro i m hm
    by_cases hj : j = i
    · rw [hj, Function.update_self, hm]
    · rw [Function.update_of_ne hj]
  cases step_does h with
  | base a base => rfl
  | read i now base => exact hset (read_opt _ _)
  | stopDevice i => exact hset rfl

/-- A board that acquires has been read as often as was noted, and its blocks are those that
came. -/
structure Noted (first : Fin n → MockDigitizer) (s : MockReadout n) (i : Fin n) : Prop where
  board : (s.boards i).running = true → s.boards i = (run readStep (first i) (s.reads i)).2
  blocks : (s.base.readers i).blocks = (run readStep (first i) (s.reads i)).1

theorem emitted_ne_nil {m : MockDigitizer} {now : ℤ} {block : RawBlock}
    (h : (m.read now).1 = some block) : block ≠ [] := by
  rcases MockDigitizer.read_cases m now with hnone | ⟨hsome, _⟩
  · rw [hnone] at h
    cases h
  · rw [hsome] at h
    cases h
    exact List.cons_ne_nil _ _

theorem read_blocks (draining : Bool) (m : MockDigitizer) (now : ℤ) (r : Reader) :
    (if draining then r.readDrain (some (answer m now))
      else r.readLoop (some (answer m now))).blocks = r.blocks ++ (readStep m now).1 := by
  cases hread : (m.read now).1 with
  | none => cases draining <;> simp [answer, readStep, hread, Reader.readDrain, Reader.readLoop]
  | some block =>
    have hfilled := emitted_ne_nil hread
    cases draining <;>
      simp [answer, readStep, hread, hfilled, Reader.readDrain, Reader.readLoop, Reader.dispatch]

theorem readStep_stopped {m : MockDigitizer} (h : m.running = false) (now : ℤ) :
    readStep m now = ([], m) := by
  have hread : m.read now = (none, m) := by
    rw [MockDigitizer.read, h]
    rfl
  rw [readStep, hread]
  rfl

theorem read_noted {first : Fin n → MockDigitizer} {s : MockReadout n} {i : Fin n}
    (h : Noted first s i) (now : ℤ) :
    ∃ nows, (if (s.boards i).running then Function.update s.reads i (s.reads i ++ [now])
        else s.reads) = Function.update s.reads i nows ∧
      ((s.boards i).running = true →
        (readStep (s.boards i) now).2 = (run readStep (first i) nows).2) ∧
      (s.base.readers i).blocks ++ (readStep (s.boards i) now).1 =
        (run readStep (first i) nows).1 := by
  obtain ⟨hboard, hblocks⟩ := h
  cases hrunning : (s.boards i).running with
  | false =>
    rw [if_neg Bool.false_ne_true, readStep_stopped hrunning, List.append_nil]
    exact ⟨s.reads i, (Function.update_eq_self i _).symm,
      fun hno => absurd hno Bool.false_ne_true, hblocks⟩
  | true =>
    have hnext := run_append readStep (first i) (s.reads i) [now]
    rw [← hboard hrunning, run_cons, run_nil, List.append_nil, ← hblocks] at hnext
    rw [if_pos rfl]
    exact ⟨_, rfl, fun _ => by rw [hnext], by rw [hnext]⟩

theorem step_noted {first : Fin n → MockDigitizer} {s s' : MockReadout n} {b : MockAction n}
    (h : ∀ i, Noted first s i) (hstep : s.step cfg b = some s') (j : Fin n) : Noted first s' j := by
  obtain ⟨hboard, hblocks⟩ := h j
  cases step_does hstep with
  | base a base hquiet hbase =>
    refine ⟨hboard, Eq.trans ?_ hblocks⟩
    cases Readout.step_moved hbase j with
    | kept hsame => exact hsame
    | received block haction => exact absurd haction (hquiet j _)
    | answered block accepted _ hsame => exact hsame
  | read i now base hbase =>
    obtain ⟨nows, hnows, hnext, hread⟩ := read_noted (h i) now
    rw [hnows]
    cases step_takes hbase with
    | read _ _ hpc =>
      by_cases hj : j = i
      · subst hj
        refine ⟨fun hrunning => ?_, ?_⟩
        · simp only [Function.update_self, read_running] at hrunning ⊢
          exact hnext hrunning
        · simp only [Function.update_self, setReader_same, read_blocks]
          exact hread
      · refine ⟨fun hrunning => ?_, ?_⟩
        · simp only [Function.update_of_ne hj] at hrunning ⊢
          exact hboard hrunning
        · simp only [Function.update_of_ne hj, readers_setReader, if_neg hj]
          exact hblocks
  | stopDevice i =>
    refine ⟨fun hrunning => ?_, hblocks⟩
    by_cases hj : j = i
    · subst hj
      simp only [Function.update_self] at hrunning
      cases hrunning
    · simp only [Function.update_of_ne hj] at hrunning ⊢
      exact hboard hrunning

def Fine : MockAction n → Prop
  | .base a => Delivery.Fine a
  | _ => True

theorem step_projects {s s' : MockReadout n} {b : MockAction n} (h : s.step cfg b = some s')
    (hb : Fine b) : ∃ as, Transition.run (Readout.step cfg) s.base as = some s'.base ∧
      (∀ a ∈ as, Delivery.Fine a) ∧
      ∀ i block, .read i (some block) ∈ as → ∃ now, block = answer (s.boards i) now := by
  have hone : ∀ {a : Action n} {t : Readout n}, s.base.step cfg a = some t →
      Transition.run (Readout.step cfg) s.base [a] = some t := fun hstep => by
    rw [Transition.run, hstep]
    rfl
  cases step_does h with
  | base a base hquiet hbase =>
    refine ⟨[a], hone hbase, List.forall_mem_singleton.mpr hb, fun i block hread => ?_⟩
    exact absurd (List.mem_singleton.mp hread).symm (hquiet i _)
  | read i now base hbase =>
    refine ⟨[_], hone hbase, List.forall_mem_singleton.mpr trivial, fun j block hread => ?_⟩
    cases List.mem_singleton.mp hread
    exact ⟨now, rfl⟩
  | stopDevice i =>
    exact ⟨[], rfl, fun _ ha => absurd ha List.not_mem_nil,
      fun _ _ hr => absurd hr List.not_mem_nil⟩

theorem run_projects {s s' : MockReadout n} {schedule : List (MockAction n)}
    (hfine : ∀ b ∈ schedule, Fine b) (hrun : Transition.run (step cfg) s schedule = some s') :
    ∃ as, Transition.run (Readout.step cfg) s.base as = some s'.base ∧
      (∀ a ∈ as, Delivery.Fine a) ∧
      ∀ i block, .read i (some block) ∈ as →
        ∃ m now, MockDigitizer.opt m = (s.boards i).opt ∧ block = answer m now := by
  induction schedule generalizing s with
  | nil =>
    cases hrun
    exact ⟨[], rfl, fun _ ha => absurd ha List.not_mem_nil,
      fun _ _ hr => absurd hr List.not_mem_nil⟩
  | cons b schedule ih =>
    obtain ⟨t, hstep, hrest⟩ := Transition.run_cons_some hrun
    obtain ⟨hb, hfine⟩ := List.forall_mem_cons.mp hfine
    obtain ⟨as, has, hfirst, hanswers⟩ := step_projects hstep hb
    obtain ⟨bs, hbs, hlater, hothers⟩ := ih hfine hrest
    refine ⟨as ++ bs, ?_, List.forall_mem_append.mpr ⟨hfirst, hlater⟩, fun i block hread => ?_⟩
    · exact (Layered.run_append has).trans hbs
    · rcases List.mem_append.mp hread with hread | hread
      · obtain ⟨now, hblock⟩ := hanswers i block hread
        exact ⟨s.boards i, now, rfl, hblock⟩
      · obtain ⟨m, now, hopt, hblock⟩ := hothers i block hread
        exact ⟨m, now, hopt.trans (step_opt hstep i), hblock⟩

theorem answer_own {m : MockDigitizer} (hshort : Short m.opt) (now : ℤ) :
    Own m.info.boardRegId (answer m now) := by
  rcases MockDigitizer.read_cases m now with hnone | ⟨hsome, _⟩
  · refine ⟨⟨[], ?_, fun _ ha => absurd ha List.not_mem_nil⟩, ?_⟩
    · rw [answer, hnone]
      rfl
    · rw [answer, hnone]
      exact Nat.two_pow_pos 32
  · obtain ⟨a, hwords, _, hboard, _⟩ := MockDigitizer.exists_emitted m hshort
    have hanswer : answer m now = bytesOf a.words := by
      rw [answer, hsome, hwords]
      rfl
    rw [hanswer]
    refine ⟨⟨[complete a], (MockDigitizer.payload_complete a).symm, ?_⟩,
      MockDigitizer.bytesOf_short a⟩
    intro b hb
    rw [List.mem_singleton.mp hb, ← hboard]
    exact (headWord_fields a).1

/-- Mock boards that the decoder knows, with traces that a channel aggregate can announce. -/
structure Known (boards : Fin n → MockDigitizer) : Prop where
  distinct : Function.Injective fun i => (boards i).info.boardRegId
  firmware : ∀ i, (boards i).opt.dpp = .pha ∨ (boards i).opt.dpp = .psd
  short : ∀ i, Short (boards i).opt

theorem accepted_sublist {r : Reader} (h : Delivery.Counted r) :
    (Delivery.accepted r).Sublist r.blocks := by
  cases hwrite : r.write with
  | false =>
    rw [Delivery.accepted, (h.silent hwrite).1]
    exact List.nil_sublist _
  | true =>
    rw [h.blocks hwrite]
    exact (List.filter_sublist.map _).trans (List.sublist_append_left _ _)

theorem accepted_blocks {r : Reader} (hresolved : r.fates.map (·.1) = r.blocks)
    (hdropped : Delivery.dropped r = []) : Delivery.accepted r = r.blocks := by
  have hall : ∀ f ∈ r.fates, f.2 = true := by
    intro f hf
    by_contra hno
    have hmem : f ∈ r.fates.filter (!·.2) := List.mem_filter.mpr ⟨hf, by simpa using hno⟩
    rw [List.map_eq_nil_iff.mp hdropped] at hmem
    exact List.not_mem_nil hmem
  rw [Delivery.accepted, List.filter_eq_self.mpr hall, hresolved]

/-- The events in some of the blocks of a mock board are some of the board's, and in all of
them they are all, with their times. -/
theorem exists_events {m : MockDigitizer} (hdpp : m.opt.dpp = .pha ∨ m.opt.dpp = .psd)
    (hshort : Short m.opt) (now : ℤ) (nows : List ℤ) {blocks : List RawBlock}
    (hblocks : blocks.Sublist (run readStep (m.start now) nows).1) :
    ∃ r, decodeBlocks (registerBoardInfo {} m.info) blocks = .ok r ∧
      (r.events.map untimed).Sublist ((run hitStep (m.start now) nows).1.map untimed) ∧
      (blocks = (run readStep (m.start now) nows).1 →
        1000 * (blocks.length * period m.opt) + 2 ^ 41 ≤ 2 ^ 63 →
        r.events = (run hitStep (m.start now) nows).1) := by
  obtain ⟨as, hall, hboards, hmeaning, htimes⟩ := MockDigitizer.start_emits hshort now nows
  rw [hall] at hblocks
  obtain ⟨bs, hbs, rfl⟩ := List.sublist_map_iff.mp hblocks
  obtain ⟨r, hdecode, hfields, hevents⟩ :=
    MockDigitizer.decodeBlocks_mock hdpp {} fun a ha => hboards a (hbs.subset ha)
  refine ⟨r, hdecode, ?_, fun hsame hlong => ?_⟩
  · rw [hfields, ← hmeaning]
    exact ((hbs.map _).flatten).map _
  · have hlength := congrArg List.length (hsame.trans hall)
    rw [List.length_map, List.length_map] at hlength
    rw [List.length_map, hlength] at hlong
    rw [hbs.eq_of_length hlength] at hevents
    exact hevents.trans (htimes hlong)

/-- A first run with mock boards, and any schedule of it. -/
structure Acquired (cfg : WriterConfig) (before : List Daq.Call) (o : Launches)
    (boards : Fin (Daq.history cfg {} (before ++ [.start o])).runners.length → MockDigitizer)
    (now : Fin (Daq.history cfg {} (before ++ [.start o])).runners.length → ℤ)
    (schedule : List (MockAction (Daq.history cfg {} (before ++ [.start o])).runners.length))
    (s : MockReadout (Daq.history cfg {} (before ++ [.start o])).runners.length) : Prop where
  started : ((Daq.history cfg {} before).start cfg o).1 = true
  first : Daq.launches cfg {} (before ++ [.start o]) = 1
  known : Known boards
  run : Transition.run (step cfg)
    (ofDaq (Daq.history cfg {} (before ++ [.start o])) fun i => (boards i).start (now i))
    schedule = some s

namespace Acquired

variable {before : List Daq.Call} {o : Launches}
  {boards : Fin (Daq.history cfg {} (before ++ [.start o])).runners.length → MockDigitizer}
  {now : Fin (Daq.history cfg {} (before ++ [.start o])).runners.length → ℤ}
  {schedule : List (MockAction (Daq.history cfg {} (before ++ [.start o])).runners.length)}
  {s : MockReadout (Daq.history cfg {} (before ++ [.start o])).runners.length}

theorem recorded (h : Acquired cfg before o boards now schedule s)
    (hfine : ∀ b ∈ schedule, Fine b) : ∃ as,
      Recorded cfg before o (fun i => (boards i).info.boardRegId) as s.base ∧
        ∀ a ∈ as, Delivery.Fine a := by
  obtain ⟨as, has, hall, hanswers⟩ := run_projects hfine h.run
  refine ⟨as, ⟨h.started, h.first, h.known.distinct, fun i block hread => ?_, has⟩, hall⟩
  obtain ⟨m, time, hopt, rfl⟩ := hanswers i block hread
  change m.opt = (boards i).opt at hopt
  have hinfo : (boards i).info = m.info := by
    unfold MockDigitizer.info
    rw [hopt]
  rw [hinfo]
  exact answer_own (by rw [hopt]; exact h.known.short i) time

theorem noted (h : Acquired cfg before o boards now schedule s) (i : Fin _) :
    Noted (fun i => (boards i).start (now i)) s i :=
  Transition.run_invariant
    (P := fun s => ∀ i, Noted (fun i => (boards i).start (now i)) s i)
    (fun _ _ _ _ hnoted hstep => step_noted hnoted hstep) (fun _ => ⟨fun _ => rfl, rfl⟩) h.run i

end Acquired

/-- When the first run of a `Daq` with mock boards of distinct ids is over whose files could be
written, the part files decode to events that the boards made up, and to no others. A board
that writes and of which nothing was dropped has all its events there, in their order and, up
to 2⁶³ ps of aggregates, with the times at which it made them up. -/
theorem mock_run {before : List Daq.Call} {o : Launches}
    {boards : Fin (Daq.history cfg {} (before ++ [.start o])).runners.length → MockDigitizer}
    {now : Fin (Daq.history cfg {} (before ++ [.start o])).runners.length → ℤ}
    {schedule : List (MockAction _)} {s : MockReadout _}
    (h : Acquired cfg before o boards now schedule s) (hfine : ∀ b ∈ schedule, Fine b)
    (hstop : s.base.stopPc = .stopped) {defs : List XdaqBoardDef} {epochStartTime : Word}
    (hheader : Headed cfg defs epochStartTime)
    (hsize : ∀ p ∈ s.base.loop.writer.parts, p.content.length < 2 ^ 32) :
    ∃ r, decodeBlocks (BoardIsolation.registerAll (List.ofFn fun i => (boards i).info))
        (s.base.loop.writer.parts.map Part.content) = .ok r ∧
      (∀ e ∈ r.events, ∃ i, e.board = (boards i).info.boardRegId) ∧
      ∀ i, ((r.events.filter fun e => e.board = (boards i).info.boardRegId).map untimed).Sublist
          ((run hitStep ((boards i).start (now i)) (s.reads i)).1.map untimed) ∧
        ((s.base.readers i).write = true → (s.base.readers i).blocksDropped = 0 →
          1000 * ((s.base.readers i).blocks.length * period (boards i).opt) + 2 ^ 41 ≤ 2 ^ 63 →
          r.events.filter (fun e => e.board = (boards i).info.boardRegId) =
            (run hitStep ((boards i).start (now i)) (s.reads i)).1) := by
  obtain ⟨as, hrecorded, hall⟩ := h.recorded hfine
  have hsound := hrecorded.sound hall
  have hdelivered := Delivery.stopped_delivered hsound.invariant hstop
  obtain ⟨sent, hown, hshares, hfiles⟩ := hrecorded.files hall hstop hheader hsize
  refine ⟨_, hfiles _, fun e he => ?_, fun i => ?_⟩
  · have hmem := events_registered _ e he
    rw [List.map_ofFn, List.mem_ofFn'] at hmem
    obtain ⟨i, hi⟩ := hmem
    exact ⟨i, hi.symm⟩
  · obtain ⟨_, hblocks⟩ := h.noted i
    have hsub := accepted_sublist (hsound.invariant.readers i)
    rw [hblocks] at hsub
    obtain ⟨r, hdecode, hsome, hexact⟩ :=
      exists_events (h.known.firmware i) (h.known.short i) (now i) (s.reads i) hsub
    rw [hshares, board_blocks hown i] at hdecode
    cases hdecode
    have hevents := board_events h.known.distinct hown i
    refine ⟨?_, fun hwrite hzero hlong => ?_⟩
    · simp only [AggregateStream.decoded, hevents] at hsome ⊢
      exact hsome
    · have hnone : Delivery.dropped (s.base.readers i) = [] :=
        List.length_eq_zero_iff.mp ((hdelivered.blocksDropped i).symm.trans hzero)
      have hsame := accepted_blocks (hdelivered.resolved i hwrite) hnone
      rw [← hsame] at hlong
      exact hevents.trans (hexact (hsame.trans hblocks) hlong)

def pairMock (i : ℕ) : MockDigitizer := .openBoard (.construct { boardId := i + 1 })

/-- The first board is read three times, once too early, and the second once; then each is
stopped and has nothing more. -/
def mockSchedule : List (MockAction pairDaq.runners.length) :=
  let a := pairFirst
  let b := pairSecond
  [.base (.check a), .base (.check b), .read b 5, .read a 3, .base (.push b false),
    .base (.push a false), .base (.count a), .base (.count b), .base .pop, .base (.write {}),
    .base .pop, .base (.write {}), .base (.check a), .read a 4, .base (.check a), .read a 6000000,
    .base (.push a false), .base (.count a), .base .stop, .base .stopBoard, .stopDevice a,
    .base (.check a), .base .join, .base (.drainCheck false), .read a 9000000, .base .release,
    .base .stopBoard, .base (.check b), .stopDevice b, .base .join, .base (.drainCheck true),
    .base .release, .base .stopBoard, .base .pop, .base (.write {}), .base .writerReturn,
    .base (.joinWriter {} {})]

theorem mock_runs : ∃ s, Transition.run (step pairConfig)
      (ofDaq pairDaq fun i => (pairMock i).start 3) mockSchedule = some s ∧
    s.base.stopPc = .stopped ∧ ∀ p ∈ s.base.loop.writer.parts, p.content.length < 2 ^ 32 := by
  have hmap : (Transition.run (step pairConfig) (ofDaq pairDaq fun i => (pairMock i).start 3)
      mockSchedule).map (fun s => (s.base.stopPc,
        decide (∀ p ∈ s.base.loop.writer.parts, p.content.length < 2 ^ 32))) =
          some (.stopped, true) := by decide +kernel
  obtain ⟨s, hrun, hs⟩ := Option.map_eq_some_iff.mp hmap
  obtain ⟨hstop, hsize⟩ := Prod.mk.inj hs
  exact ⟨s, hrun, hstop, of_decide_eq_true hsize⟩

theorem mock_fine : ∀ b ∈ mockSchedule, Fine b := by
  have hwriting : Turn.Fine {} := ⟨⟨⟨rfl, rfl, rfl, rfl⟩, rfl⟩, rfl⟩
  simp [mockSchedule, Fine, Delivery.Fine, hwriting]

theorem pair_known : Known fun i : Fin pairDaq.runners.length => pairMock i := by
  refine ⟨fun i j heq => ?_, fun _ => Or.inr rfl, fun _ hno => absurd hno Bool.false_ne_true⟩
  have htwo : pairDaq.runners.length = 2 := by decide +kernel
  have hi := i.isLt
  have hj := j.isLt
  change (i.val + 1) % 2 ^ 5 = (j.val + 1) % 2 ^ 5 at heq
  exact Fin.ext (by omega)

theorem mock_run_pair : ∃ s, Transition.run (step pairConfig)
      (ofDaq pairDaq fun i => (pairMock i).start 3) mockSchedule = some s ∧
    ∃ r, decodeBlocks (BoardIsolation.registerAll
          (List.ofFn fun i : Fin pairDaq.runners.length => (pairMock i).info))
        (s.base.loop.writer.parts.map Part.content) = .ok r ∧
      (∀ e ∈ r.events, ∃ i : Fin pairDaq.runners.length, e.board = (pairMock i).info.boardRegId) ∧
      ∀ i : Fin pairDaq.runners.length,
        ((r.events.filter fun e => e.board = (pairMock i).info.boardRegId).map untimed).Sublist
          ((run hitStep ((pairMock i).start 3) (s.reads i)).1.map untimed) ∧
        ((s.base.readers i).write = true → (s.base.readers i).blocksDropped = 0 →
          1000 * ((s.base.readers i).blocks.length * period (pairMock i).opt) + 2 ^ 41 ≤ 2 ^ 63 →
          r.events.filter (fun e => e.board = (pairMock i).info.boardRegId) =
            (run hitStep ((pairMock i).start 3) (s.reads i)).1) := by
  obtain ⟨s, hrun, hstop, hsize⟩ := mock_runs
  have hacquired : Acquired pairConfig pair {} (fun i => pairMock i) (fun _ => 3) mockSchedule s :=
    ⟨by decide +kernel, by decide +kernel, pair_known, hrun⟩
  exact ⟨s, hrun, mock_run hacquired mock_fine hstop pairConfig_headed hsize⟩

end MockReadout
end CaenDaq
