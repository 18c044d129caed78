import CaenDaq.Readout

/-!
# What a step of the run can do

`step` by cases, each with what it needs and the state it leads to. Seen from the queue and
the writer most steps do nothing, and most leave the blocks of a reader alone.
-/

namespace CaenDaq
namespace Readout

variable {n : ℕ}

inductive Takes (cfg : WriterConfig) (s : Readout n) : Action n → Readout n → Prop
  | check (i : Fin n) (pc : (s.readers i).pc = .checking) (active : s.isDraining i = false) :
    Takes cfg s (.check i) (s.setReader i { s.readers i with
      pc := if (s.readers i).running && !s.loop.writerFailed then .reading else .returned })
  | read (i : Fin n) (answer : Option RawBlock) (pc : (s.readers i).pc = .reading) :
    Takes cfg s (.read i answer) (s.setReader i
      (if s.isDraining i then (s.readers i).readDrain answer else (s.readers i).readLoop answer))
  | waited (i : Fin n) (timedOut : Bool) (block : RawBlock)
    (pc : (s.readers i).pc = .pushing block)
    (answer : (s.queue.push (fun b => b.2.length) timedOut (i, block)).1 = none) :
    Takes cfg s (.push i timedOut) s
  | pushed (i : Fin n) (timedOut : Bool) (block : RawBlock) (accepted : Bool)
    (q : BlockQueue (Fin n × RawBlock)) (pc : (s.readers i).pc = .pushing block)
    (answer : s.queue.push (fun b => b.2.length) timedOut (i, block) = (some accepted, q)) :
    Takes cfg s (.push i timedOut) { s.setReader i { s.readers i with
      pc := .counting block accepted, fates := (s.readers i).fates ++ [(block, accepted)] } with
      queue := q }
  | count (i : Fin n) (block : RawBlock) (accepted : Bool)
    (pc : (s.readers i).pc = .counting block accepted) :
    Takes cfg s (.count i) (s.setReader i ((s.readers i).count block accepted))
  | pop (block : Fin n × RawBlock) (q : BlockQueue (Fin n × RawBlock)) (pc : s.writerPc = .popping)
    (answer : s.queue.pop = some (block, q)) :
    Takes cfg s .pop { s with writerPc := .holding block, queue := q }
  | write (turn : Turn) (block : Fin n × RawBlock) (pc : s.writerPc = .holding block) :
    Takes cfg s (.write turn) { s with
      loop := WriterLoop.turn cfg s.loop { turn with block := some block.2 }
      writerPc :=
        if (WriterLoop.turn cfg s.loop { turn with block := some block.2 }).writerFailed
        then .returned else .popping
      written :=
        if (WriterLoop.turn cfg s.loop { turn with block := some block.2 }).writerFailed
        then s.written else s.written ++ [block] }
  | idle (turn : Turn) (pc : s.writerPc = .popping) (items : s.queue.items = [])
    (isOpen : s.queue.closed = false) :
    Takes cfg s (.idle turn) { s with
      loop := WriterLoop.turn cfg s.loop { turn with block := none } }
  | writerReturn (pc : s.writerPc = .popping) (items : s.queue.items = [])
    (closed : s.queue.closed = true) : Takes cfg s .writerReturn { s with writerPc := .returned }
  | stop (pc : s.stopPc = .notCalled) : Takes cfg s .stop { s with stopPc := .stopping 0 }
  | stopBoard (i : Fin n) (pc : s.stopPc = .stopping i) (running : (s.readers i).running = true) :
    Takes cfg s .stopBoard
      { s.setReader i { s.readers i with running := false } with stopPc := .joining i }
  | skipBoard (i : Fin n) (pc : s.stopPc = .stopping i) (running : (s.readers i).running = false) :
    Takes cfg s .stopBoard { s with stopPc := .stopping (i + 1) }
  | closeQueue (i : ℕ) (pc : s.stopPc = .stopping i) (last : n ≤ i) :
    Takes cfg s .stopBoard { s with queue := s.queue.close, stopPc := .joiningWriter }
  | join (i : Fin n) (pc : s.stopPc = .joining i) (returned : (s.readers i).pc = .returned) :
    Takes cfg s .join
      { s.setReader i { s.readers i with pc := .checking } with stopPc := .draining i 0 }
  | drainMore (i : Fin n) (reads : ℕ) (late : Bool) (pc : s.stopPc = .draining i reads)
    (checking : (s.readers i).pc = .checking) (more : reads < kMaxReads) (inTime : late = false) :
    Takes cfg s (.drainCheck late)
      { s.setReader i { s.readers i with pc := .reading } with stopPc := .draining i (reads + 1) }
  | drainDone (i : Fin n) (reads : ℕ) (late : Bool) (pc : s.stopPc = .draining i reads)
    (checking : (s.readers i).pc = .checking) (ended : reads < kMaxReads → late = true) :
    Takes cfg s (.drainCheck late) (s.setReader i { s.readers i with pc := .returned })
  | release (i : Fin n) (reads : ℕ) (pc : s.stopPc = .draining i reads)
    (returned : (s.readers i).pc = .returned) :
    Takes cfg s .release { s with stopPc := .stopping (i + 1) }
  | joinWriter (flush close : Transfer) (pc : s.stopPc = .joiningWriter)
    (returned : s.writerPc = .returned) :
    Takes cfg s (.joinWriter flush close)
      { s with loop := s.loop.teardown flush close, stopPc := .stopped }

variable {cfg : WriterConfig}

theorem stopBoard_takes {s s' : Readout n} (h : s.stopBoard = some s') :
    Takes cfg s .stopBoard s' := by
  unfold Readout.stopBoard at h
  split at h
  · next i hpc =>
    split at h
    · next hi =>
      dsimp only at h
      split at h
      · next hrunning =>
        cases h
        exact .stopBoard ⟨i, hi⟩ hpc hrunning
      · next hrunning =>
        cases h
        exact .skipBoard ⟨i, hi⟩ hpc (eq_false_of_ne_true hrunning)
    · next hi =>
      cases h
      exact .closeQueue i hpc (Nat.le_of_not_lt hi)
  · cases h

theorem drainCheck_takes {s s' : Readout n} {late : Bool} (h : s.drainCheck late = some s') :
    Takes cfg s (.drainCheck late) s' := by
  unfold Readout.drainCheck at h
  split at h
  · next i reads hpc =>
    split at h
    · next hi =>
      dsimp only at h
      split at h
      · next hchecking =>
        split at h
        · next hmore =>
          cases h
          exact .drainMore ⟨i, hi⟩ reads late hpc hchecking hmore.1 hmore.2
        · next hover =>
          cases h
          refine .drainDone ⟨i, hi⟩ reads late hpc hchecking fun hmore => ?_
          exact eq_true_of_ne_false fun hlate => hover ⟨hmore, hlate⟩
      · cases h
    · cases h
  · cases h

/-- Every step is one of these. -/
theorem step_takes {s s' : Readout n} {a : Action n} (h : s.step cfg a = some s') :
    Takes cfg s a s' := by
  cases a with
  | check i =>
    simp only [step, Readout.check] at h
    split at h
    · next hready =>
      cases h
      exact .check i hready.1 hready.2
    · cases h
  | read i answer =>
    simp only [step, Readout.read] at h
    split at h
    · next hpc =>
      cases h
      exact .read i answer hpc
    · cases h
  | push i timedOut =>
    simp only [step, Readout.push] at h
    split at h
    · next block hpc =>
      split at h
      · next hanswer =>
        cases h
        exact .waited i timedOut block hpc hanswer
      · next accepted hanswer =>
        cases h
        exact .pushed i timedOut block accepted _ hpc (Prod.ext hanswer rfl)
    · cases h
  | count i =>
    simp only [step, Readout.count] at h
    split at h
    · next block accepted hpc =>
      cases h
      exact .count i block accepted hpc
    · cases h
  | pop =>
    simp only [step, Readout.pop] at h
    split at h
    · next hpc =>
      obtain ⟨⟨block, q⟩, hpop, rfl⟩ := Option.map_eq_some_iff.mp h
      exact .pop block q hpc hpop
    · cases h
  | write turn =>
    simp only [step, Readout.write] at h
    split at h
    · next block hpc =>
      cases h
      exact .write turn block hpc
    · cases h
  | idle turn =>
    simp only [step, Readout.idle] at h
    split at h
    · next hready =>
      cases h
      exact .idle turn hready.1 hready.2.1 hready.2.2
    · cases h
  | writerReturn =>
    simp only [step, Readout.writerReturn] at h
    split at h
    · next hready =>
      cases h
      obtain ⟨hpc, hdrained⟩ := hready
      simp only [BlockQueue.drained, Bool.and_eq_true, List.isEmpty_iff] at hdrained
      exact .writerReturn hpc hdrained.2 hdrained.1
    · cases h
  | stop =>
    simp only [step, Readout.stop] at h
    split at h
    · next hpc =>
      cases h
      exact .stop hpc
    · cases h
  | stopBoard => exact stopBoard_takes h
  | join =>
    simp only [step, Readout.join] at h
    split at h
    · next i hpc =>
      split at h
      · next hi =>
        split at h
        · next hreturned =>
          cases h
          exact .join ⟨i, hi⟩ hpc hreturned
        · cases h
      · cases h
    · cases h
  | drainCheck late => exact drainCheck_takes h
  | release =>
    simp only [step, Readout.release] at h
    split at h
    · next i reads hpc =>
      split at h
      · next hi =>
        split at h
        · next hreturned =>
          cases h
          exact .release ⟨i, hi⟩ reads hpc hreturned
        · cases h
      · cases h
    · cases h
  | joinWriter flush close =>
    simp only [step, Readout.joinWriter] at h
    split at h
    · next hready =>
      cases h
      exact .joinWriter flush close hready.1 hready.2
    · cases h

theorem readers_setReader (s : Readout n) (i j : Fin n) (r : Reader) :
    (s.setReader i r).readers j = if j = i then r else s.readers j :=
  Function.update_apply _ _ _ _

theorem setReader_same (s : Readout n) (i : Fin n) (r : Reader) :
    (s.setReader i r).readers i = r := by
  rw [readers_setReader, if_pos rfl]

theorem isDraining_iff {s : Readout n} {i : Fin n} :
    s.isDraining i = true ↔ ∃ reads, s.stopPc = .draining i reads := by
  unfold isDraining
  split
  · next j reads hpc =>
    rw [decide_eq_true_iff, hpc]
    constructor
    · rintro rfl
      exact ⟨reads, rfl⟩
    · rintro ⟨_, heq⟩
      exact (StopPc.draining.inj heq).1
  · next hno => exact ⟨nofun, fun ⟨reads, hpc⟩ => absurd hpc (hno i reads)⟩

structure Traffic (n : ℕ) where
  fates : Fin n → List (RawBlock × Bool)
  items : List (Fin n × RawBlock)
  writerPc : WriterPc n
  loop : WriterLoop
  written : List (Fin n × RawBlock)

def traffic (s : Readout n) : Traffic n where
  fates i := (s.readers i).fates
  items := s.queue.items
  writerPc := s.writerPc
  loop := s.loop
  written := s.written

inductive Effect (cfg : WriterConfig) (s s' : Readout n) : Prop
  | quiet (traffic : s'.traffic = s.traffic)
  | answered (i : Fin n) (block : RawBlock) (accepted : Bool)
      (traffic : s'.traffic = { s.traffic with
        fates := Function.update s.traffic.fates i (s.traffic.fates i ++ [(block, accepted)])
        items := s.traffic.items ++ if accepted then [(i, block)] else [] })
  | popped (block : Fin n × RawBlock) (rest : List (Fin n × RawBlock))
      (popping : s.writerPc = .popping) (items : s.queue.items = block :: rest)
      (traffic : s'.traffic = { s.traffic with items := rest, writerPc := .holding block })
  | wrote (block : Fin n × RawBlock) (turn : Turn) (holding : s.writerPc = .holding block)
      (traffic : s'.traffic = { s.traffic with
        loop := WriterLoop.turn cfg s.loop { turn with block := some block.2 }
        writerPc :=
          if (WriterLoop.turn cfg s.loop { turn with block := some block.2 }).writerFailed
          then .returned else .popping
        written :=
          if (WriterLoop.turn cfg s.loop { turn with block := some block.2 }).writerFailed
          then s.written else s.written ++ [block] })
  | idled (turn : Turn) (popping : s.writerPc = .popping)
      (traffic : s'.traffic = { s.traffic with
        loop := WriterLoop.turn cfg s.loop { turn with block := none } })
  | returned (popping : s.writerPc = .popping) (items : s.queue.items = [])
      (traffic : s'.traffic = { s.traffic with writerPc := .returned })
  | closed (flush close : Transfer) (returned : s.writerPc = .returned)
      (traffic : s'.traffic = { s.traffic with loop := s.loop.teardown flush close })

theorem traffic_setReader {s : Readout n} {i : Fin n} {r : Reader}
    (h : r.fates = (s.readers i).fates) : (s.setReader i r).traffic = s.traffic := by
  have hfates : (fun j => ((s.setReader i r).readers j).fates) = fun j => (s.readers j).fates := by
    funext j
    show (Function.update s.readers i r j).fates = (s.readers j).fates
    by_cases hj : j = i
    · rw [hj, Function.update_self, h]
    · rw [Function.update_of_ne hj]
  simp only [traffic, hfates]
  rfl

/-- A block that was read goes on to the queue if the board writes; any other read brings
the reader to the head or to the end of its loop. -/
theorem read_cases (answer : Option RawBlock) (r r' : Reader)
    (h : r' = r.readLoop answer ∨ r' = r.readDrain answer) :
    (r'.blocks = r.blocks ∧ r'.fates = r.fates ∧ (r'.pc = .checking ∨ r'.pc = .returned)) ∨
      ∃ block, answer = some block ∧ block ≠ [] ∧ r' = r.dispatch block := by
  unfold Reader.readLoop Reader.readDrain at h
  cases answer with
  | none =>
    rcases h with rfl | rfl
    · exact .inl ⟨rfl, rfl, .inl rfl⟩
    · exact .inl ⟨rfl, rfl, .inr rfl⟩
  | some block =>
    by_cases hempty : block = []
    · rcases h with rfl | rfl
      · exact .inl (by simp [hempty])
      · exact .inl (by simp [hempty])
    · refine .inr ⟨block, rfl, hempty, ?_⟩
      rcases h with rfl | rfl
      · simp [hempty]
      · simp [hempty]

theorem read_either (draining : Bool) (answer : Option RawBlock) (r : Reader) :
    (if draining then r.readDrain answer else r.readLoop answer) = r.readLoop answer ∨
      (if draining then r.readDrain answer else r.readLoop answer) = r.readDrain answer := by
  cases draining with
  | true => exact .inr rfl
  | false => exact .inl rfl

theorem count_kept (block : RawBlock) (accepted : Bool) (r : Reader) :
    (r.count block accepted).blocks = r.blocks ∧ (r.count block accepted).fates = r.fates ∧
      (r.count block accepted).pc = .checking := by
  unfold Reader.count
  split <;> exact ⟨rfl, rfl, rfl⟩

theorem step_effect {s s' : Readout n} {a : Action n} (h : s.step cfg a = some s') :
    Effect cfg s s' := by
  cases step_takes h with
  | check i => exact .quiet (traffic_setReader rfl)
  | read i answer =>
    refine .quiet (traffic_setReader ?_)
    rcases read_cases answer _ _ (read_either _ answer _) with ⟨_, hfates, _⟩ | ⟨block, _, _, hr⟩
    · exact hfates
    · rw [hr]
      rfl
  | waited => exact .quiet rfl
  | pushed i timedOut block accepted q hpc hanswer =>
    obtain ⟨_, hcases⟩ := BlockQueue.push_cases (fun b => b.2.length) timedOut (i, block) s.queue
    rw [hanswer] at hcases
    have hitems : q.items = s.queue.items ++ if accepted then [(i, block)] else [] := by
      rcases hcases with ⟨hyes, _, hitems⟩ | ⟨hno, hitems⟩
      · rw [Option.some.inj hyes, if_pos rfl]
        exact hitems
      · have hrefused : accepted = false := eq_false_of_ne_true fun hyes => hno (congrArg some hyes)
        rw [hrefused, if_neg Bool.false_ne_true, List.append_nil]
        exact hitems
    refine .answered i block accepted ?_
    simp only [traffic, hitems, setReader]
    congr 1
    funext j
    by_cases hj : j = i
    · rw [hj, Function.update_self, Function.update_self]
    · rw [Function.update_of_ne hj, Function.update_of_ne hj]
  | count i block accepted => exact .quiet (traffic_setReader (count_kept _ _ _).2.1)
  | pop block q hpc hanswer =>
    exact .popped block q.items hpc (BlockQueue.pop_some hanswer).1 rfl
  | write turn block hpc => exact .wrote block turn hpc rfl
  | idle turn hpc => exact .idled turn hpc rfl
  | writerReturn hpc hitems => exact .returned hpc hitems rfl
  | stop => exact .quiet rfl
  | stopBoard i => exact .quiet (traffic_setReader (s := s) rfl)
  | skipBoard i => exact .quiet rfl
  | closeQueue i => exact .quiet rfl
  | join i => exact .quiet (traffic_setReader (s := s) rfl)
  | drainMore i => exact .quiet (traffic_setReader (s := s) rfl)
  | drainDone i => exact .quiet (traffic_setReader rfl)
  | release i => exact .quiet rfl
  | joinWriter flush close _ hreturned => exact .closed flush close hreturned rfl

inductive Moved (a : Action n) (i : Fin n) (r r' : Reader) : Prop
  | kept (blocks : r'.blocks = r.blocks) (fates : r'.fates = r.fates)
      (pc : r'.pc = r.pc ∨ ∀ block, r'.pc ≠ .pushing block)
  | received (block : RawBlock) (action : a = .read i (some block)) (filled : block ≠ [])
      (reader : r' = r.dispatch block)
  | answered (block : RawBlock) (accepted : Bool) (pushing : r.pc = .pushing block)
      (blocks : r'.blocks = r.blocks) (fates : r'.fates = r.fates ++ [(block, accepted)])
      (pc : r'.pc = .counting block accepted)

theorem Moved.refl (a : Action n) (i : Fin n) (r : Reader) : Moved a i r r :=
  .kept rfl rfl (.inl rfl)

theorem moved_setReader {a : Action n} {s : Readout n} {i : Fin n} {r : Reader}
    (h : Moved a i (s.readers i) r) (j : Fin n) :
    Moved a j (s.readers j) ((s.setReader i r).readers j) := by
  show Moved a j (s.readers j) (Function.update s.readers i r j)
  by_cases hj : j = i
  · subst hj
    rwa [Function.update_self]
  · rw [Function.update_of_ne hj]
    exact Moved.refl a j _

theorem step_moved {s s' : Readout n} {a : Action n} (h : s.step cfg a = some s') (j : Fin n) :
    Moved a j (s.readers j) (s'.readers j) := by
  have hset : ∀ {i : Fin n} {r : Reader}, r.blocks = (s.readers i).blocks →
      r.fates = (s.readers i).fates → (r.pc = (s.readers i).pc ∨ ∀ block, r.pc ≠ .pushing block) →
      Moved a j (s.readers j) ((s.setReader i r).readers j) := fun hblocks hfates hpc =>
    moved_setReader (.kept hblocks hfates hpc) j
  cases step_takes h with
  | check i hpc =>
    refine hset rfl rfl (.inr ?_)
    dsimp only
    split <;> nofun
  | read i answer =>
    refine moved_setReader ?_ j
    rcases read_cases answer _ _ (read_either _ answer _) with
      ⟨hblocks, hfates, hpc⟩ | ⟨block, hanswer, hfilled, hr⟩
    · refine .kept hblocks hfates (.inr fun block hpushing => ?_)
      rcases hpc with hpc | hpc
      · cases hpc.symm.trans hpushing
      · cases hpc.symm.trans hpushing
    · exact .received block (by rw [hanswer]) hfilled hr
  | waited => exact Moved.refl _ j _
  | pushed i timedOut block accepted q hpc =>
    have hmoved : Moved (.push i timedOut) i (s.readers i) { s.readers i with
        pc := .counting block accepted, fates := (s.readers i).fates ++ [(block, accepted)] } :=
      .answered block accepted hpc rfl rfl rfl
    exact moved_setReader hmoved j
  | count i block accepted =>
    obtain ⟨hblocks, hfates, hpc⟩ := count_kept block accepted (s.readers i)
    refine hset hblocks hfates (.inr ?_)
    rw [hpc]
    nofun
  | stopBoard i => exact hset rfl rfl (.inl rfl)
  | join i => exact hset rfl rfl (.inr nofun)
  | drainMore i => exact hset rfl rfl (.inr nofun)
  | drainDone i => exact hset rfl rfl (.inr nofun)
  | pop => exact Moved.refl _ j _
  | write => exact Moved.refl _ j _
  | idle => exact Moved.refl _ j _
  | writerReturn => exact Moved.refl _ j _
  | stop => exact Moved.refl _ j _
  | skipBoard => exact Moved.refl _ j _
  | closeQueue => exact Moved.refl _ j _
  | release => exact Moved.refl _ j _
  | joinWriter => exact Moved.refl _ j _

/-- What holds of every block that a board answered with holds of all that its reader has
had in its hands. -/
structure Received (P : Fin n → RawBlock → Prop) (i : Fin n) (r : Reader) : Prop where
  blocks : ∀ block ∈ r.blocks, P i block
  fates : ∀ f ∈ r.fates, P i f.1
  pushing : ∀ block, r.pc = .pushing block → P i block

theorem step_received {P : Fin n → RawBlock → Prop} {s s' : Readout n} {a : Action n}
    (ha : ∀ i block, a = .read i (some block) → P i block) (h : ∀ i, Received P i (s.readers i))
    (hstep : s.step cfg a = some s') (i : Fin n) : Received P i (s'.readers i) := by
  obtain ⟨hall, hanswered, hpushing⟩ := h i
  cases step_moved hstep i with
  | kept hblocks hfates hpc =>
    refine ⟨by rwa [hblocks], by rwa [hfates], fun block hblock => ?_⟩
    rcases hpc with hsame | hnone
    · exact hpushing block (hsame.symm.trans hblock)
    · exact absurd hblock (hnone block)
  | received block haction _ hreader =>
    have hnew := ha i block haction
    rw [hreader]
    refine ⟨List.forall_mem_append.mpr ⟨hall, List.forall_mem_singleton.mpr hnew⟩, hanswered,
      fun other hother => ?_⟩
    change (if (s.readers i).write then ReaderPc.pushing block else .checking) = _ at hother
    split at hother
    · cases hother
      exact hnew
    · cases hother
  | answered block accepted hpc hblocks hfates hpc' =>
    refine ⟨by rwa [hblocks], ?_, fun other hother => ?_⟩
    · rw [hfates]
      refine List.forall_mem_append.mpr ⟨hanswered, ?_⟩
      exact List.forall_mem_singleton.mpr (hpushing block hpc)
    · rw [hpc'] at hother
      cases hother

theorem run_received {P : Fin n → RawBlock → Prop} {s s' : Readout n} {schedule : List (Action n)}
    (hschedule : ∀ i block, .read i (some block) ∈ schedule → P i block)
    (h : ∀ i, Received P i (s.readers i)) (hrun : Transition.run (step cfg) s schedule = some s') :
    ∀ i, Received P i (s'.readers i) :=
  Transition.run_invariant (P := fun s => ∀ i, Received P i (s.readers i))
    (fun _ _ _ ha h hstep => step_received
      (fun i block heq => hschedule i block (heq ▸ ha)) h hstep) h hrun

theorem ofDaq_received (d : Daq) (P : Fin d.runners.length → RawBlock → Prop) (i : Fin _) :
    Received P i ((ofDaq d).readers i) :=
  ⟨fun _ hb => absurd hb List.not_mem_nil, fun _ hf => absurd hf List.not_mem_nil, nofun⟩

/-- Once the stop has returned, the writer has, and its file is closed. -/
def Closes (s : Readout n) : Prop :=
  s.stopPc = .stopped → s.writerPc = .returned ∧ s.loop.writer.closed = true

theorem close_closed (t t' : Transfer) (w : RawFileWriter) : (w.close t t').closed = true := by
  unfold RawFileWriter.close
  split
  · next hclosed => exact hclosed
  · rfl

theorem step_closes {s s' : Readout n} {a : Action n} (h : Closes s)
    (hstep : s.step cfg a = some s') : Closes s' := by
  intro hstop
  have hbusy : ∀ {pc : WriterPc n}, s.writerPc = pc → pc ≠ .returned → s.stopPc ≠ .stopped :=
    fun hpc hne hstop => hne (hpc.symm.trans (h hstop).1)
  cases step_takes hstep with
  | check => exact h hstop
  | read => exact h hstop
  | waited => exact h hstop
  | pushed => exact h hstop
  | count => exact h hstop
  | pop block q hpc => exact absurd hstop (hbusy hpc nofun)
  | write turn block hpc => exact absurd hstop (hbusy hpc nofun)
  | idle turn hpc => exact absurd hstop (hbusy hpc nofun)
  | writerReturn hpc => exact absurd hstop (hbusy hpc nofun)
  | drainDone => exact h hstop
  | stop => cases hstop
  | stopBoard => cases hstop
  | skipBoard => cases hstop
  | closeQueue => cases hstop
  | join => cases hstop
  | drainMore => cases hstop
  | release => cases hstop
  | joinWriter flush close _ hreturned => exact ⟨hreturned, close_closed flush close _⟩

end Readout
end CaenDaq
