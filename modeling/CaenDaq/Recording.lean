import CaenDaq.Daq

/-!
# Runs that record

Which flags a call of `Daq` changes depends on how far the boards get; over a history
all that matters is how often the boards were launched. A second launch finds the queue
closed for good.
-/

namespace CaenDaq
namespace Recording

open Daq

variable {cfg : WriterConfig}

def writes (runners : List BoardRunner) : List Bool := runners.map (·.write)

theorem prepare_write (o : Preparation) (r : BoardRunner) : (r.prepare o).2.write = r.write := by
  unfold BoardRunner.prepare
  split
  · rfl
  · dsimp only
    split <;> rfl

theorem launch_write (o : Launch) (r : BoardRunner) : (r.launch o).2.write = r.write := by
  unfold BoardRunner.launch BoardRunner.arm BoardRunner.start
  split
  · split
    · rfl
    · split <;> rfl
  · split
    · rfl
    · split <;> rfl

theorem stop_write (r : BoardRunner) : r.stop.write = r.write := by
  unfold BoardRunner.stop
  split <;> rfl

theorem writes_stop (runners : List BoardRunner) :
    writes (runners.map (·.stop)) = writes runners := by
  rw [writes, List.map_map]
  exact List.map_congr_left fun r _ => stop_write r

theorem writes_startReader (runners : List BoardRunner) :
    writes (runners.map (·.startReader)) = writes runners := by
  rw [writes, List.map_map]
  rfl

theorem writes_prepareRunners (o : ℕ → Preparation) (i : ℕ) (runners : List BoardRunner) :
    writes (prepareRunners o i runners).2 = writes runners := by
  induction runners generalizing i with
  | nil => rfl
  | cons r rs ih =>
    have hr := prepare_write (o i) r
    unfold prepareRunners
    dsimp only
    split
    · rw [writes, List.map_cons, hr]
      rfl
    · rw [writes, List.map_cons, hr]
      exact congrArg _ (ih (i + 1))

theorem writes_startRunners (o : ℕ → Launch) (master : Option ℕ) (i : ℕ)
    (runners : List BoardRunner) :
    writes (startRunners o master i runners).2 = writes runners := by
  induction runners generalizing i with
  | nil => rfl
  | cons r rs ih =>
    have hr := launch_write (o i) r
    unfold startRunners
    dsimp only
    split
    · rw [writes, List.map_cons, stop_write, hr]
      rfl
    · rw [writes, List.map_cons]
      refine congrArg₂ _ ?_ (ih (i + 1))
      split
      · exact hr
      · rw [stop_write]
        exact hr

theorem launch_running {o : Launch} {r : BoardRunner} (h : (r.launch o).1 = true) :
    (r.launch o).2.running = true := by
  revert h
  unfold BoardRunner.launch BoardRunner.arm BoardRunner.start
  cases hrunning : r.running <;> cases hlaunched : o.launched <;> split <;> simp [hrunning]

theorem startRunners_running {o : ℕ → Launch} {master : Option ℕ} {i : ℕ}
    {runners : List BoardRunner} (h : (startRunners o master i runners).1 = true) :
    ∀ r ∈ (startRunners o master i runners).2, r.running = true := by
  induction runners generalizing i with
  | nil => exact fun r hr => absurd hr List.not_mem_nil
  | cons r rs ih =>
    cases hlaunch : (r.launch (o i)).1 with
    | false => simp [startRunners, hlaunch] at h
    | true =>
      simp only [startRunners, hlaunch, Bool.not_true, Bool.false_eq_true, if_false] at h ⊢
      rw [if_pos h]
      exact List.forall_mem_cons.mpr ⟨launch_running hlaunch, ih h⟩

/-- The writer of a `Daq` has just opened the first file of the run. -/
def WriterReady (cfg : WriterConfig) (d : Daq) : Prop :=
  ∃ o, (RawFileWriter.openFirst cfg o {}).1 = true ∧
    d.writer = some (RawFileWriter.openFirst cfg o {}).2

/-- What `prepare` leaves alone. -/
structure Frame (d d' : Daq) : Prop where
  writeQueue : d'.writeQueue = d.writeQueue
  draining : d'.draining = d.draining
  running : d'.running = d.running
  writerFailed : d'.writerFailed = d.writerFailed
  anyWrite : d'.anyWrite = d.anyWrite
  writes : writes d'.runners = writes d.runners

theorem prepare_of_prepared (o : Preparations) {d : Daq} (h : d.prepared = true) :
    d.prepare cfg o = (true, d) := by rw [prepare, if_pos h]

/-- A `prepare` with something to do: it opens the file of boards that write, or fails
and may be tried again. -/
theorem prepare_spec (cfg : WriterConfig) (o : Preparations) {d : Daq} (h : d.prepared = false) :
    Frame d (d.prepare cfg o).2 ∧
      (d.prepare cfg o).2.prepared = (d.prepare cfg o).1 ∧
      ((d.prepare cfg o).1 = true → d.anyWrite = true → WriterReady cfg (d.prepare cfg o).2) ∧
      (d.anyWrite = false → (d.prepare cfg o).2.writer = d.writer) := by
  have hwrites := writes_prepareRunners o.board 0 d.runners
  have hnot : ¬d.prepared = true := by simp [h]
  unfold prepare
  rw [if_neg hnot]
  dsimp only
  cases hrunners : (prepareRunners o.board 0 d.runners).1 with
  | false =>
    exact ⟨⟨rfl, rfl, rfl, rfl, rfl, hwrites⟩, h, fun hok => absurd hok Bool.false_ne_true, fun _ => rfl⟩
  | true =>
    cases hany : d.anyWrite with
    | false =>
      exact ⟨⟨rfl, rfl, rfl, rfl, hany.symm, hwrites⟩, rfl, fun _ hok => absurd hok Bool.false_ne_true,
        fun _ => rfl⟩
    | true =>
      cases hopen : (RawFileWriter.openFirst cfg o.opening {}).1 with
      | false =>
        exact ⟨⟨rfl, rfl, rfl, rfl, hany.symm, hwrites⟩, h, fun hok => absurd hok Bool.false_ne_true,
          fun hnone => absurd hnone.symm Bool.false_ne_true⟩
      | true =>
        exact ⟨⟨rfl, rfl, rfl, rfl, hany.symm, hwrites⟩, rfl, fun _ _ => ⟨o.opening, hopen, rfl⟩,
          fun hnone => absurd hnone.symm Bool.false_ne_true⟩

structure Launched (d : Daq) (r : Bool × Daq) : Prop where
  prepared : r.2.prepared = d.prepared
  anyWrite : r.2.anyWrite = d.anyWrite
  writes : writes r.2.runners = writes d.runners
  writerFailed : r.2.writerFailed = false
  running : r.2.running = r.1
  started : r.1 = true → r.2.writeQueue = d.writeQueue ∧ r.2.writer = d.writer ∧
    r.2.draining = (if d.anyWrite then !d.writeQueue.drained else d.draining) ∧
    ∀ b ∈ r.2.runners, b.running = true
  failed : r.1 = false → r.2.writeQueue.closed = true ∧ r.2.writeQueue.items = [] ∧
    r.2.writer = d.writer.map (RawFileWriter.close {} {}) ∧ r.2.draining = false

theorem launchRunners_spec (o : Launches) {d : Daq} (h : d.running = false) :
    Launched d (launchRunners o d) := by
  have hwrites := writes_startRunners o.board (masterIndex d.runners) 0 d.runners
  unfold launchRunners startWriter
  dsimp only
  cases hrunners : (startRunners o.board (masterIndex d.runners) 0 d.runners).1 with
  | false =>
    exact ⟨rfl, rfl, hwrites, rfl, h, fun hok => absurd hok Bool.false_ne_true,
      fun _ => ⟨rfl, rfl, rfl, rfl⟩⟩
  | true =>
    cases htrigger : ((masterIndex d.runners).isSome && !o.swTrigger) with
    | true =>
      refine ⟨rfl, rfl, ?_, rfl, h, fun hok => absurd hok Bool.false_ne_true,
        fun _ => ⟨rfl, rfl, rfl, rfl⟩⟩
      exact (writes_stop _).trans hwrites
    | false =>
      refine ⟨rfl, rfl, ?_, rfl, rfl, fun _ => ⟨rfl, rfl, rfl, ?_⟩,
        fun hok => absurd hok.symm Bool.false_ne_true⟩
      · exact (writes_startReader _).trans hwrites
      · intro b hb
        obtain ⟨r, hr, rfl⟩ := List.mem_map.mp hb
        exact startRunners_running hrunners r hr

/-- The state of a `Daq` whose boards were launched `n` times: the queue has been closed
by the end of each launch but one that still runs. -/
structure Accounts (cfg : WriterConfig) (d : Daq) (n : ℕ) : Prop where
  anyWrite : d.anyWrite = (writes d.runners).any id
  prepared : d.running = true → d.prepared = true
  boards : d.running = true → ∀ r ∈ d.runners, r.running = true
  writerFailed : d.writerFailed = false
  items : d.writeQueue.items = []
  launched : d.running = true → 1 ≤ n
  closed : d.writeQueue.closed = true ↔ (if d.running then 1 else 0) < n
  writer : d.prepared = true → d.anyWrite = true → d.writeQueue.closed = false →
    WriterReady cfg d
  draining : d.running = true → d.anyWrite = true → d.draining = !d.writeQueue.closed
  silent : d.anyWrite = false → d.writer = none ∧ d.draining = false

theorem accounts_new : Accounts cfg {} 0 :=
  ⟨rfl, by simp, by simp, rfl, rfl, by simp, by simp [BlockQueue.ofCapacity], by simp, by simp,
    fun _ => ⟨rfl, rfl⟩⟩

theorem addBoard_accounts {d : Daq} {n : ℕ} (h : Accounts cfg d n) (spec : BoardSpec) :
    Accounts cfg (d.addBoard spec).2 n := by
  unfold addBoard
  by_cases hbusy : (d.running || d.prepared) = true
  · rw [if_pos hbusy]
    exact h
  · rw [if_neg hbusy]
    split
    · exact h
    · simp only [Bool.or_eq_true, not_or] at hbusy
      refine ⟨?_, h.prepared, fun hrunning => absurd hrunning hbusy.1, h.writerFailed, h.items,
        h.launched, h.closed, fun hprepared => absurd hprepared hbusy.2,
        fun hrunning => absurd hrunning hbusy.1, ?_⟩
      · simp [writes, h.anyWrite]
      · intro hnone
        exact h.silent (Bool.or_eq_false_iff.mp hnone).1

theorem prepare_accounts {d : Daq} {n : ℕ} (h : Accounts cfg d n) (o : Preparations) :
    Accounts cfg (d.prepare cfg o).2 n := by
  cases hprepared : d.prepared with
  | true =>
    rw [prepare_of_prepared o hprepared]
    exact h
  | false =>
    obtain ⟨hframe, hnow, hopen, hsilent⟩ := prepare_spec cfg o hprepared
    have hidle : d.running ≠ true := fun hrunning =>
      absurd (hprepared.symm.trans (h.prepared hrunning)) Bool.false_ne_true
    rw [← hframe.running] at hidle
    refine ⟨?_, fun hrunning => absurd hrunning hidle, fun hrunning => absurd hrunning hidle,
      hframe.writerFailed.trans h.writerFailed, ?_, ?_, ?_, ?_,
      fun hrunning => absurd hrunning hidle, ?_⟩
    · rw [hframe.anyWrite, hframe.writes, h.anyWrite]
    · rw [hframe.writeQueue, h.items]
    · rw [hframe.running]
      exact h.launched
    · rw [hframe.running, hframe.writeQueue]
      exact h.closed
    · rw [hnow, hframe.anyWrite]
      exact fun hok hany _ => hopen hok hany
    · rw [hframe.anyWrite, hframe.draining]
      exact fun hnone => ⟨(hsilent hnone).trans (h.silent hnone).1, (h.silent hnone).2⟩

theorem launchRunners_accounts {d : Daq} {n : ℕ} (h : Accounts cfg d n) (hidle : d.running = false)
    (hprepared : d.prepared = true) (o : Launches) :
    Accounts cfg (launchRunners o d).2 (n + 1) := by
  obtain ⟨hstill, hany, hwrites, hunfailed, hrunning, hstarted, hfailed⟩ := launchRunners_spec o hidle
  have hclosed : d.writeQueue.closed = true ↔ 0 < n := by
    have hcount := h.closed
    rwa [hidle, if_neg Bool.false_ne_true] at hcount
  cases hok : (launchRunners o d).1 with
  | false =>
    obtain ⟨hqueue, hitems, hwriter, hdraining⟩ := hfailed hok
    rw [hok] at hrunning
    have hdown : (launchRunners o d).2.running ≠ true := by simp [hrunning]
    refine ⟨by rw [hany, hwrites, h.anyWrite], fun hrun => absurd hrun hdown,
      fun hrun => absurd hrun hdown, hunfailed, hitems, fun hrun => absurd hrun hdown, ?_, ?_,
      fun hrun => absurd hrun hdown, ?_⟩
    · rw [hqueue, hrunning, if_neg Bool.false_ne_true]
      exact ⟨fun _ => Nat.succ_pos n, fun _ => rfl⟩
    · exact fun _ _ hopen => absurd (hqueue.symm.trans hopen) (by decide)
    · rw [hany, hwriter]
      exact fun hnone => ⟨by rw [(h.silent hnone).1]; rfl, hdraining⟩
  | true =>
    obtain ⟨hqueue, hwriter, hdraining, hboards⟩ := hstarted hok
    rw [hok] at hrunning
    refine ⟨by rw [hany, hwrites, h.anyWrite], ?_, ?_, hunfailed, by rw [hqueue, h.items], ?_, ?_, ?_,
      ?_, ?_⟩
    · exact fun _ => hstill.trans hprepared
    · exact fun _ => hboards
    · exact fun _ => Nat.succ_pos n
    · rw [hqueue, hrunning, if_pos rfl, hclosed]
      omega
    · rw [hqueue, hany, WriterReady, hwriter]
      exact fun _ => h.writer hprepared
    · rw [hany, hqueue]
      intro _ hwrite
      rw [hdraining, if_pos hwrite, BlockQueue.drained, h.items]
      simp
    · rw [hany, hwriter]
      intro hnone
      rw [hdraining, hnone, if_neg Bool.false_ne_true]
      exact h.silent hnone

theorem stop_accounts {d : Daq} {n : ℕ} (h : Accounts cfg d n) : Accounts cfg d.stop n := by
  unfold Daq.stop
  by_cases hrunning : d.running = true
  · have hn := h.launched hrunning
    rw [if_neg (by simp [hrunning])]
    refine ⟨?_, by simp, by simp, h.writerFailed, rfl, by simp, ?_, ?_, by simp, ?_⟩
    · rw [h.anyWrite]
      exact congrArg (·.any id) (writes_stop d.runners).symm
    · rw [if_neg Bool.false_ne_true]
      exact ⟨fun _ => hn, fun _ => rfl⟩
    · exact fun _ _ hopen => absurd hopen.symm Bool.false_ne_true
    · intro hnone
      show d.writer.map (RawFileWriter.close {} {}) = none ∧ _
      rw [(h.silent hnone).1]
      exact ⟨rfl, rfl⟩
  · rw [if_pos (by simp [hrunning])]
    exact h

theorem start_launch {d : Daq} {o : Launches} (hidle : d.running = false)
    (hok : (d.prepare cfg o.preparations).1 = true) :
    d.start cfg o = launchRunners o (d.prepare cfg o.preparations).2 ∧
      (d.prepare cfg o.preparations).2.running = false ∧
      (d.prepare cfg o.preparations).2.prepared = true := by
  refine ⟨by simp [start, hidle, hok], ?_⟩
  cases hprepared : d.prepared with
  | true =>
    rw [prepare_of_prepared o.preparations hprepared]
    exact ⟨hidle, hprepared⟩
  | false =>
    obtain ⟨hframe, hnow, _⟩ := prepare_spec cfg o.preparations hprepared
    exact ⟨hframe.running.trans hidle, hnow.trans hok⟩

theorem start_unprepared {d : Daq} {o : Launches} (hidle : d.running = false)
    (hfailed : (d.prepare cfg o.preparations).1 = false) :
    d.start cfg o = d.prepare cfg o.preparations := by
  simp [start, hidle, hfailed]

theorem call_accounts (cfg : WriterConfig) {d : Daq} {n : ℕ} (h : Accounts cfg d n) (c : Call) :
    Accounts cfg (call cfg d c) (n + if launching cfg d c then 1 else 0) := by
  cases c with
  | addBoard spec => exact addBoard_accounts h spec
  | prepare o => exact prepare_accounts h o
  | stop => exact stop_accounts h
  | start o =>
    have hprepare := prepare_accounts h o.preparations
    show Accounts cfg (d.start cfg o).2 _
    cases hrunning : d.running with
    | true =>
      rw [start, if_pos hrunning, launching, hrunning]
      exact h
    | false =>
      cases hok : (d.prepare cfg o.preparations).1 with
      | false =>
        rw [start_unprepared hrunning hok, launching, hok, Bool.and_false]
        exact hprepare
      | true =>
        obtain ⟨hstart, hidle, hprepared⟩ := start_launch hrunning hok
        rw [hstart, launching, hrunning, hok]
        exact launchRunners_accounts hprepare hidle hprepared o

theorem history_accounts (cfg : WriterConfig) {d : Daq} {n : ℕ} (h : Accounts cfg d n) (calls : List Call) :
    Accounts cfg (history cfg d calls) (n + launches cfg d calls) := by
  unfold history
  induction calls generalizing d n with
  | nil => exact h
  | cons c calls ih =>
    have hnext := ih (call_accounts cfg h c)
    rwa [Nat.add_assoc] at hnext

theorem call_running {d : Daq} {n : ℕ} (h : Accounts cfg d n) (hrunning : d.running = true) {c : Call}
    (hc : c ≠ .stop) : (call cfg d c).running = true := by
  cases c with
  | addBoard spec => simp [call, addBoard, hrunning]
  | prepare o => simp [call, prepare, h.prepared hrunning, hrunning]
  | start o => simp [call, start, hrunning]
  | stop => exact absurd rfl hc

theorem history_running {d : Daq} {n : ℕ} (h : Accounts cfg d n) (hrunning : d.running = true)
    {calls : List Call} (hcalls : Call.stop ∉ calls) : (history cfg d calls).running = true := by
  unfold history
  induction calls generalizing d n with
  | nil => exact hrunning
  | cons c calls ih =>
    have hc : c ≠ .stop := fun hc => hcalls (hc ▸ List.mem_cons_self)
    exact ih (call_accounts cfg h c) (call_running h hrunning hc)
      fun hmem => hcalls (List.mem_cons_of_mem _ hmem)

theorem start_running {d : Daq} {o : Launches} (hok : (d.start cfg o).1 = true) :
    (d.start cfg o).2.running = true := by
  cases hrunning : d.running with
  | true => rw [start, if_pos hrunning, hrunning]
  | false =>
    cases hprepare : (d.prepare cfg o.preparations).1 with
    | false =>
      rw [start_unprepared hrunning hprepare, hprepare] at hok
      exact absurd hok Bool.false_ne_true
    | true =>
      obtain ⟨hstart, hidle, _⟩ := start_launch hrunning hprepare
      rw [hstart] at hok ⊢
      exact (launchRunners_spec o hidle).running.trans hok

theorem started_running {before : List Call} {o : Launches}
    (hok : ((history cfg {} before).start cfg o).1 = true) :
    (history cfg {} (before ++ [.start o])).running = true := by
  rw [history, List.foldl_append]
  exact start_running hok

theorem started_boards {before : List Call} {o : Launches}
    (hok : ((history cfg {} before).start cfg o).1 = true) :
    ∀ r ∈ (history cfg {} (before ++ [.start o])).runners, r.running = true :=
  (history_accounts cfg accounts_new (before ++ [.start o])).boards (started_running hok)

/-- A running `Daq` with a board that writes records exactly if its boards have been
launched once. -/
theorem running_iff {d : Daq} {n : ℕ} (h : Accounts cfg d n) (hrunning : d.running = true)
    (hwrite : ∃ r ∈ d.runners, r.write = true) : Recording d ↔ n = 1 := by
  have hany : d.anyWrite = true := by
    obtain ⟨r, hr, hw⟩ := hwrite
    rw [h.anyWrite, List.any_eq_true]
    exact ⟨true, List.mem_map.mpr ⟨r, hr, hw⟩, rfl⟩
  have hn := h.launched hrunning
  have hclosed := h.closed
  rw [hrunning, if_pos rfl] at hclosed
  constructor
  · intro hrecording
    have hopen : ¬1 < n := fun hlt =>
      absurd (hrecording.accepting.symm.trans (hclosed.mpr hlt)) Bool.false_ne_true
    omega
  · intro hone
    have hopen : d.writeQueue.closed = false :=
      eq_false_of_ne_true fun hc => absurd (hclosed.mp hc) (by omega)
    obtain ⟨o, hok, hwriter⟩ := h.writer (h.prepared hrunning) hany hopen
    obtain ⟨hready, _⟩ := RawFileWriter.openFirst_spec hok
    exact ⟨hopen, by rw [h.draining hrunning hany, hopen]; rfl,
      _, hwriter, hready.closed, hready.isOpen⟩

/-- A run that was reported started, and not stopped since, records what its boards
send if, and only if, the boards were launched for the first time in it. -/
theorem started_iff {before after : List Call} {o : Launches}
    (hok : ((history cfg {} before).start cfg o).1 = true) (hcalls : Call.stop ∉ after)
    (hwrite : ∃ r ∈ (history cfg {} (before ++ .start o :: after)).runners, r.write = true) :
    Recording (history cfg {} (before ++ .start o :: after)) ↔
      launches cfg {} (before ++ .start o :: after) = 1 := by
  have hbefore := history_accounts cfg accounts_new before
  have hstarted := call_accounts cfg hbefore (.start o)
  have hrunning : (history cfg {} (before ++ .start o :: after)).running = true := by
    rw [history, List.foldl_append, List.foldl_cons]
    exact history_running hstarted (start_running hok) hcalls
  have hall := history_accounts cfg accounts_new (before ++ .start o :: after)
  rw [Nat.zero_add] at hall
  exact running_iff hall hrunning hwrite

/-- One board that writes, and a first start that it refuses. -/
def refused : List Call :=
  [.addBoard {}, .start { board := fun _ => { launched := false } }]

theorem started_iff_first :
    Recording (history {} {} ([.addBoard {}] ++ .start {} :: [.prepare {}])) ↔
      launches {} {} ([.addBoard {}] ++ .start {} :: [.prepare {}]) = 1 :=
  started_iff (by decide) (by simp) (by decide)

/-- The second start is reported as a success, and nothing is recorded. -/
theorem retry_records_nothing :
    ((history {} {} refused).start {} {}).1 = true ∧
      (∃ r ∈ (history {} {} (refused ++ [.start {}])).runners, r.write = true) ∧
      ¬Recording (history {} {} (refused ++ [.start {}])) := by
  refine ⟨by decide, by decide, fun h => ?_⟩
  have hclosed : (history {} {} (refused ++ [.start {}])).writeQueue.closed = true := by decide
  exact absurd (h.accepting.symm.trans hclosed) Bool.false_ne_true

end Recording
end CaenDaq
