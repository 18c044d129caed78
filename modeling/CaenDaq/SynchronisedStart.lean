import CaenDaq.DeviceCalls

/-!
# The synchronised start

In what order `Daq::start` calls its boards, whichever of them fails: the clock chain is
aligned, every board is armed or started, then the master fires the trigger, then the
readers come up. A start that fails takes back what it has done.
-/

namespace CaenDaq
namespace SynchronisedStart

open Daq DeviceCalls CallOrder

/-- All boards run and are read, or none of them. -/
def Settled (d : Daq) : Prop := ∀ r ∈ d.runners, r.running = d.running ∧ r.readerUp = d.running

theorem stop_settled (r : BoardRunner) (h : r.readerUp = true → r.running = true) :
    r.stop.running = false ∧ r.stop.readerUp = false := by
  unfold BoardRunner.stop
  cases hrunning : r.running with
  | true => simp
  | false =>
    have hreader : r.readerUp = false := by
      cases hup : r.readerUp with
      | false => rfl
      | true => exact absurd (hrunning.symm.trans (h hup)) Bool.false_ne_true
    simp [hrunning, hreader]

theorem prepare_flags (o : Preparation) (r : BoardRunner) :
    (r.prepare o).2.running = r.running ∧ (r.prepare o).2.readerUp = r.readerUp := by
  unfold BoardRunner.prepare
  split
  · exact ⟨rfl, rfl⟩
  · dsimp only
    split <;> exact ⟨rfl, rfl⟩

theorem launch_flags (o : Launch) {r : BoardRunner} (h : r.running = false) :
    (r.launch o).1 = o.launched ∧ (r.launch o).2.running = o.launched ∧
      (r.launch o).2.readerUp = r.readerUp := by
  unfold BoardRunner.launch BoardRunner.arm BoardRunner.start
  cases hlaunched : o.launched <;> split <;> simp [h]

theorem prepareRunners_flags {o : ℕ → Preparation} {i : ℕ} {rs : List BoardRunner} {b : Bool}
    (h : ∀ r ∈ rs, r.running = b ∧ r.readerUp = b) :
    ∀ r ∈ (prepareRunners o i rs).2, r.running = b ∧ r.readerUp = b := by
  induction rs generalizing i with
  | nil => exact h
  | cons r rs ih =>
    obtain ⟨hr, hrs⟩ := List.forall_mem_cons.mp h
    have hflags := prepare_flags (o i) r
    rw [hr.1, hr.2] at hflags
    unfold prepareRunners
    dsimp only
    split
    · exact List.forall_mem_cons.mpr ⟨hflags, hrs⟩
    · exact List.forall_mem_cons.mpr ⟨hflags, ih hrs⟩

theorem prepare_settled (cfg : WriterConfig) (o : Preparations) {d : Daq} (h : Settled d) :
    Settled (d.prepare cfg o).2 ∧ (d.prepare cfg o).2.running = d.running := by
  have hprepared := prepareRunners_flags (o := o.board) (i := 0) h
  unfold Daq.prepare
  dsimp only
  split
  · exact ⟨h, rfl⟩
  · split
    · exact ⟨hprepared, rfl⟩
    · split
      · split <;> exact ⟨hprepared, rfl⟩
      · exact ⟨hprepared, rfl⟩

theorem startRunners_flags (o : ℕ → Launch) (master : Option ℕ) (i : ℕ) {rs : List BoardRunner}
    (h : ∀ r ∈ rs, r.running = false ∧ r.readerUp = false) :
    ∀ r ∈ (startRunners o master i rs).2,
      r.running = (startRunners o master i rs).1 ∧ r.readerUp = false := by
  induction rs generalizing i with
  | nil => exact fun r hr => absurd hr List.not_mem_nil
  | cons r rs ih =>
    obtain ⟨hr, hrs⟩ := List.forall_mem_cons.mp h
    obtain ⟨hok, hrunning, hreader⟩ := launch_flags (o i) hr.1
    rw [hr.2] at hreader
    have hstop := stop_settled (r.launch (o i)).2 fun hup =>
      absurd (hreader.symm.trans hup) Bool.false_ne_true
    simp only [startRunners]
    cases hlaunch : (o i).launched with
    | false =>
      rw [hlaunch] at hok
      simp only [hok, Bool.not_false, if_true]
      exact List.forall_mem_cons.mpr ⟨hstop, hrs⟩
    | true =>
      rw [hlaunch] at hok hrunning
      simp only [hok, Bool.not_true, Bool.false_eq_true, if_false]
      refine List.forall_mem_cons.mpr ⟨?_, ih (i + 1) hrs⟩
      cases hrest : (startRunners o master (i + 1) rs).1 with
      | true => exact ⟨hrunning, hreader⟩
      | false =>
        exact stop_settled _ fun hup => absurd (hreader.symm.trans hup) Bool.false_ne_true

theorem launchRunners_settled {o : Launches} {d : Daq} (hidle : d.running = false)
    (h : ∀ r ∈ d.runners, r.running = false ∧ r.readerUp = false) :
    Settled (launchRunners o d).2 := by
  have hflags := startRunners_flags o.board (masterIndex d.runners) 0 h
  unfold launchRunners startWriter
  dsimp only
  cases hok : (startRunners o.board (masterIndex d.runners) 0 d.runners).1 with
  | false =>
    rw [hok] at hflags
    intro r hr
    show r.running = d.running ∧ r.readerUp = d.running
    rw [hidle]
    exact hflags r hr
  | true =>
    rw [hok] at hflags
    simp only [Bool.not_true, Bool.false_eq_true, if_false]
    split
    · intro r hr
      obtain ⟨b, hb, rfl⟩ := List.mem_map.mp hr
      show b.stop.running = d.running ∧ b.stop.readerUp = d.running
      rw [hidle]
      exact stop_settled b fun hup => absurd ((hflags b hb).2.symm.trans hup) Bool.false_ne_true
    · intro r hr
      obtain ⟨b, hb, rfl⟩ := List.mem_map.mp hr
      exact ⟨(hflags b hb).1, rfl⟩

theorem call_settled {cfg : WriterConfig} {d : Daq} (h : Settled d) (c : Call) :
    Settled (call cfg d c) := by
  cases c with
  | addBoard spec =>
    simp only [call, addBoard]
    split
    · exact h
    · next hbusy =>
      split
      · exact h
      · simp only [Bool.or_eq_true, not_or, Bool.not_eq_true] at hbusy
        intro r hr
        rcases List.mem_append.mp hr with hr | hr
        · exact h r hr
        · rw [List.mem_singleton.mp hr]
          exact ⟨hbusy.1.symm, hbusy.1.symm⟩
  | prepare o => exact (prepare_settled cfg o h).1
  | start o =>
    obtain ⟨hprepared, hrunning⟩ := prepare_settled cfg o.preparations h
    simp only [call, start]
    split
    · exact h
    · next hidle =>
      split
      · exact hprepared
      · rw [Bool.not_eq_true] at hidle
        rw [hidle] at hrunning
        refine launchRunners_settled hrunning fun r hr => ?_
        have hflags := hprepared r hr
        rwa [hrunning] at hflags
  | stop =>
    simp only [call, Daq.stop]
    split
    · exact h
    · next hrunning =>
      simp only [Bool.not_eq_true', Bool.not_eq_false] at hrunning
      intro r hr
      obtain ⟨b, hb, rfl⟩ := List.mem_map.mp hr
      exact stop_settled b fun _ => (h b hb).1.trans hrunning

theorem history_settled (cfg : WriterConfig) {d : Daq} (h : Settled d) (calls : List Call) :
    Settled (history cfg d calls) := by
  unfold history
  induction calls generalizing d with
  | nil => exact h
  | cons c calls ih => exact ih (call_settled h c)

variable (a : Answers)

def shutdown (board : ℕ) : List DeviceCall :=
  .stop board :: (drain board (a.drain board) ++ [.close board])

def shutdowns (n : ℕ) : List DeviceCall := (List.range n).flatMap (shutdown a)

def launchSeq (o : ℕ → Launch) (i : ℕ) (rs : List BoardRunner) : List DeviceCall :=
  (rs.zipIdx i).map fun r => launchCall o r.2 r.1

theorem stopCalls_running (i : ℕ) (rs : List BoardRunner) (h : ∀ r ∈ rs, r.running = true) :
    (rs.zipIdx i).flatMap (fun r => stopCalls a r.2 r.1) =
      (List.range' i rs.length).flatMap (shutdown a) := by
  induction rs generalizing i with
  | nil => rfl
  | cons r rs ih =>
    obtain ⟨hr, hrs⟩ := List.forall_mem_cons.mp h
    have hcalls : stopCalls a i r = shutdown a i := by
      rw [stopCalls, hr]
      rfl
    rw [List.zipIdx_cons, List.flatMap_cons, ih (i + 1) hrs, List.length_cons, List.range'_succ,
      List.flatMap_cons, hcalls]

theorem stopAllCalls_running {rs : List BoardRunner} (h : ∀ r ∈ rs, r.running = true) :
    stopAllCalls a rs = shutdowns a rs.length := by
  rw [stopAllCalls, stopCalls_running a 0 rs h, shutdowns, List.range_eq_range']

theorem stopAllCalls_failed {rs : List BoardRunner} (h : ∀ r ∈ rs, r.running = true)
    {r : BoardRunner} (hr : r.running = false) :
    stopAllCalls a (rs ++ [r]) = shutdowns a rs.length := by
  have hcalls : stopCalls a rs.length r = [] := by
    rw [stopCalls, hr]
    rfl
  rw [← stopAllCalls_running a h]
  simp [stopAllCalls, List.zipIdx_append, hcalls]

/-- The loop over the boards launches all of them, or stops at the first that fails and
shuts down those before it. -/
theorem launchLoop_calls (o : ℕ → Launch) (master : Option ℕ) (done : List BoardRunner)
    (hdone : ∀ r ∈ done, r.running = true) {rs : List BoardRunner}
    (h : ∀ r ∈ rs, r.running = false) :
    let l := launchLoop a o master done done.length rs
    (l.1.1 = true ∧ (∀ k < rs.length, (o (done.length + k)).launched = true) ∧
      l.2 = launchSeq o done.length rs) ∨
    (l.1.1 = false ∧ ∃ k < rs.length, (∀ j < k, (o (done.length + j)).launched = true) ∧
      (o (done.length + k)).launched = false ∧
      l.2 = launchSeq o done.length (rs.take (k + 1)) ++ shutdowns a (done.length + k)) := by
  induction rs generalizing done with
  | nil => exact .inl ⟨rfl, fun k hk => absurd hk (Nat.not_lt_zero k), rfl⟩
  | cons r rs ih =>
    obtain ⟨hr, hrs⟩ := List.forall_mem_cons.mp h
    obtain ⟨hok, hrunning, _⟩ := launch_flags (o done.length) hr
    have hcalls : launchCalls o done.length r = [launchCall o done.length r] := by
      rw [launchCalls, hr]
      rfl
    simp only [launchLoop, hok, hcalls]
    cases hlaunch : (o done.length).launched with
    | false =>
      rw [hlaunch] at hrunning
      simp only [Bool.not_false, if_true]
      refine .inr ⟨trivial, 0, Nat.succ_pos _, fun j hj => absurd hj (Nat.not_lt_zero j), hlaunch, ?_⟩
      rw [stopAllCalls_failed a hdone hrunning]
      rfl
    | true =>
      rw [hlaunch] at hrunning
      simp only [Bool.not_true, Bool.false_eq_true, if_false]
      have hnext := ih (done ++ [(r.launch (o done.length)).2.setSyncRole
        (roleOf master done.length r.synchronised)]) (by
          intro b hb
          rcases List.mem_append.mp hb with hb | hb
          · exact hdone b hb
          · rw [List.mem_singleton.mp hb]
            exact hrunning) hrs
      simp only [List.length_append, List.length_singleton] at hnext
      have hshift : ∀ k, done.length + 1 + k = done.length + (k + 1) := fun k => by omega
      rcases hnext with ⟨htrue, hall, hrest⟩ | ⟨hfalse, k, hk, hbefore, hfail, hrest⟩
      · refine .inl ⟨htrue, ?_, ?_⟩
        · intro k hk
          cases k with
          | zero => exact hlaunch
          | succ k => exact hshift k ▸ hall k (Nat.lt_of_succ_lt_succ hk)
        · rw [hrest]
          rfl
      · refine .inr ⟨hfalse, k + 1, Nat.succ_lt_succ hk, ?_, hshift k ▸ hfail, ?_⟩
        · intro j hj
          cases j with
          | zero => exact hlaunch
          | succ j => exact hshift j ▸ hbefore j (Nat.lt_of_succ_lt_succ hj)
        · rw [hrest, hshift]
          rfl

theorem startRunners_length (o : ℕ → Launch) (master : Option ℕ) (i : ℕ) (rs : List BoardRunner) :
    (startRunners o master i rs).2.length = rs.length := by
  have hwrites := congrArg List.length (Recording.writes_startRunners o master i rs)
  simpa [Recording.writes] using hwrites

inductive Phase
  | setup | launch | trigger | reading | shutdown
  deriving DecidableEq

/-- Which part of a run a call belongs to: opening, configuring and aligning the boards
come first, the shutdown last. -/
def phase : DeviceCall → Phase
  | .openBoard .. | .configure .. | .register .. => .setup
  | .start .. | .arm .. => .launch
  | .sendSWTrigger .. => .trigger
  | .startReader .. => .reading
  | .stop .. | .read .. | .close .. => .shutdown

def launches (board : ℕ) : DeviceCall → Bool
  | .start i _ | .arm i _ => i = board
  | _ => false

/-- The board was started or armed, and said so. -/
def Launched (calls : List DeviceCall) (board : ℕ) : Prop :=
  .start board true ∈ calls ∨ .arm board true ∈ calls

theorem launches_phase {board : ℕ} {c : DeviceCall} (h : launches board c = true) :
    phase c = .launch := by
  cases c <;> first | rfl | exact absurd h Bool.false_ne_true

theorem prepareDaqCalls_phase (o : Preparations) (d : Daq) :
    ∀ c ∈ prepareDaqCalls o d, phase c = .setup := by
  have hboards : ∀ i rs, ∀ c ∈ prepareRunnersCalls o.board i rs, phase c = .setup := by
    intro i rs
    induction rs generalizing i with
    | nil => exact fun c hc => absurd hc List.not_mem_nil
    | cons r rs ih =>
      intro c hc
      rw [prepareRunnersCalls, prepareCalls] at hc
      rcases List.mem_append.mp hc with hc | hc
      · rcases List.mem_cons.mp hc with rfl | hc
        · rfl
        · split at hc
          · exact absurd hc List.not_mem_nil
          · rw [List.mem_singleton.mp hc]
            rfl
      · split at hc
        · exact absurd hc List.not_mem_nil
        · exact ih (i + 1) c hc
  intro c hc
  rw [prepareDaqCalls] at hc
  split at hc
  · exact absurd hc List.not_mem_nil
  · exact hboards 0 d.runners c hc

theorem alignCalls_phase (runners : List BoardRunner) :
    ∀ c ∈ alignCalls a runners, phase c = .setup := by
  intro c hc
  rw [alignCalls] at hc
  split at hc
  · exact absurd hc List.not_mem_nil
  · obtain ⟨e, _, rfl⟩ := List.mem_map.mp hc
    rfl

theorem mem_launchSeq {o : ℕ → Launch} {rs : List BoardRunner} {c : DeviceCall} :
    c ∈ launchSeq o 0 rs ↔ ∃ i r, rs[i]? = some r ∧ c = launchCall o i r := by
  constructor
  · intro hc
    obtain ⟨r, hr, rfl⟩ := List.mem_map.mp hc
    exact ⟨r.2, r.1, List.mem_zipIdx_iff_getElem?.mp hr, rfl⟩
  · rintro ⟨i, r, hr, rfl⟩
    exact List.mem_map.mpr ⟨(r, i), List.mem_zipIdx_iff_getElem?.mpr hr, rfl⟩

theorem launchCall_phase (o : ℕ → Launch) (i : ℕ) (r : BoardRunner) :
    phase (launchCall o i r) = .launch := by
  unfold launchCall
  split <;> rfl

theorem launchCall_launches (o : ℕ → Launch) (i j : ℕ) (r : BoardRunner) :
    launches j (launchCall o i r) = decide (i = j) := by
  unfold launchCall
  split <;> rfl

theorem launchSeq_phase {o : ℕ → Launch} {rs : List BoardRunner} :
    ∀ c ∈ launchSeq o 0 rs, phase c = .launch := by
  intro c hc
  obtain ⟨i, r, _, rfl⟩ := mem_launchSeq.mp hc
  exact launchCall_phase o i r

theorem countP_launchSeq (o : ℕ → Launch) (i j : ℕ) (rs : List BoardRunner) :
    (launchSeq o i rs).countP (launches j) = if i ≤ j ∧ j < i + rs.length then 1 else 0 := by
  induction rs generalizing i with
  | nil =>
    rw [if_neg (by simp)]
    rfl
  | cons r rs ih =>
    have hcons : launchSeq o i (r :: rs) = launchCall o i r :: launchSeq o (i + 1) rs := rfl
    rw [hcons, List.countP_cons, ih, launchCall_launches, List.length_cons]
    by_cases hij : i = j
    · simp [hij]
    · simp only [hij, decide_false, Bool.false_eq_true, if_false, Nat.add_zero]
      congr 1
      apply propext
      omega

theorem launched_launchSeq {o : ℕ → Launch} {rs : List BoardRunner} {i : ℕ} :
    Launched (launchSeq o 0 rs) i ↔ i < rs.length ∧ (o i).launched = true := by
  constructor
  · intro h
    rcases h with h | h
    · obtain ⟨j, r, hr, hcall⟩ := mem_launchSeq.mp h
      unfold launchCall at hcall
      split at hcall
      · cases hcall
      · injection hcall with hboard hlaunched
        exact ⟨hboard ▸ (List.getElem?_eq_some_iff.mp hr).1, hboard ▸ hlaunched.symm⟩
    · obtain ⟨j, r, hr, hcall⟩ := mem_launchSeq.mp h
      unfold launchCall at hcall
      split at hcall
      · injection hcall with hboard hlaunched
        exact ⟨hboard ▸ (List.getElem?_eq_some_iff.mp hr).1, hboard ▸ hlaunched.symm⟩
      · cases hcall
  · rintro ⟨hi, hlaunched⟩
    have hmem := (mem_launchSeq (o := o)).mpr ⟨i, rs[i], List.getElem?_eq_getElem hi, rfl⟩
    unfold launchCall at hmem
    rw [hlaunched] at hmem
    split at hmem
    · exact .inr hmem
    · exact .inl hmem

theorem drainFrom_reads {board : ℕ} {answer : ℕ → DrainRead} {n rounds : ℕ} :
    ∀ c ∈ drainFrom board answer n rounds, c = .read board := by
  induction rounds generalizing n with
  | zero => exact fun c hc => absurd hc List.not_mem_nil
  | succ rounds ih =>
    intro c hc
    rw [drainFrom] at hc
    split at hc
    · exact absurd hc List.not_mem_nil
    · split at hc
      · exact List.mem_singleton.mp hc
      · rcases List.mem_cons.mp hc with hc | hc
        · exact hc
        · exact ih c hc

theorem mem_shutdown {board : ℕ} {c : DeviceCall} (h : c ∈ shutdown a board) :
    c = .stop board ∨ c = .read board ∨ c = .close board := by
  rcases List.mem_cons.mp h with hc | hc
  · exact .inl hc
  · rcases List.mem_append.mp hc with hc | hc
    · exact .inr (.inl (drainFrom_reads c hc))
    · exact .inr (.inr (List.mem_singleton.mp hc))

theorem shutdowns_phase {n : ℕ} : ∀ c ∈ shutdowns a n, phase c = .shutdown := by
  intro c hc
  obtain ⟨i, _, hi⟩ := List.mem_flatMap.mp hc
  rcases mem_shutdown a hi with rfl | rfl | rfl <;> rfl

theorem shutdowns_preceded (n : ℕ) :
    Preceded (fun c => ∃ i, c = .read i) (fun b c => ∃ i, b = .stop i ∧ c = .read i)
      (shutdowns a n) := by
  refine Preceded.flatMap fun i _ => Preceded.cons ?_ ?_
  · rintro ⟨j, hj⟩
    cases hj
  · rintro c hc ⟨j, rfl⟩
    rcases mem_shutdown a (List.mem_cons_of_mem _ hc) with hc | hc | hc
    · cases hc
    · cases hc
      exact ⟨i, rfl, rfl⟩
    · cases hc

theorem stop_close_sublist {i n : ℕ} (hi : i < n) :
    [DeviceCall.stop i, .close i].Sublist (shutdowns a n) := by
  have hshutdown : [DeviceCall.stop i, .close i].Sublist (shutdown a i) :=
    List.Sublist.cons_cons _ (List.sublist_append_right _ _)
  exact hshutdown.trans (List.sublist_flatten_of_mem (List.mem_map_of_mem (List.mem_range.mpr hi)))

theorem masterIndex_none {runners : List BoardRunner} :
    masterIndex runners = none ↔ ∀ b ∈ runners, b.synchronised = false := by
  unfold masterIndex
  rw [Option.orElse_eq_orElse, Option.orElse_eq_or, Option.or_eq_none_iff,
    List.findIdx?_eq_none_iff, List.findIdx?_eq_none_iff]
  constructor
  · rintro ⟨_, h⟩
    exact h
  · intro h
    exact ⟨fun b hb => by simp [h b hb], h⟩

theorem masterIndex_some {runners : List BoardRunner} {m : ℕ} (h : masterIndex runners = some m) :
    ∃ b, runners[m]? = some b ∧ b.synchronised = true := by
  rw [masterIndex, Option.orElse_eq_orElse, Option.orElse_eq_or] at h
  rcases Option.or_eq_some_iff.mp h with hfirst | ⟨_, hany⟩
  · obtain ⟨hm, hb, _⟩ := List.findIdx?_eq_some_iff_getElem.mp hfirst
    rw [Bool.and_eq_true] at hb
    exact ⟨runners[m], List.getElem?_eq_getElem hm, hb.1⟩
  · obtain ⟨hm, hb, _⟩ := List.findIdx?_eq_some_iff_getElem.mp hany
    exact ⟨runners[m], List.getElem?_eq_getElem hm, hb⟩

theorem roleOf_master {master : Option ℕ} {i : ℕ} {synced : Bool}
    (h : master = some i → synced = true) : roleOf master i synced = .master ↔ master = some i := by
  unfold roleOf
  cases synced with
  | false =>
    have hother : master ≠ some i := fun hm => Bool.false_ne_true (h hm)
    simp [hother]
  | true => by_cases hm : master = some i <;> simp [hm]

theorem countP_master {o : ℕ → Launch} {master : Option ℕ} {i : ℕ} {rs : List BoardRunner}
    (hok : (startRunners o master i rs).1 = true)
    (hsynced : ∀ m b, master = some m → i ≤ m → rs[m - i]? = some b → b.synchronised = true) :
    (startRunners o master i rs).2.countP (fun b => b.boardInfo.syncRole = .master) =
      if ∃ m, master = some m ∧ i ≤ m ∧ m < i + rs.length then 1 else 0 := by
  induction rs generalizing i with
  | nil =>
    rw [if_neg (by rintro ⟨m, _, hle, hlt⟩; rw [List.length_nil] at hlt; omega)]
    rfl
  | cons r rs ih =>
    cases hlaunch : (r.launch (o i)).1 with
    | false => simp [startRunners, hlaunch] at hok
    | true =>
      simp only [startRunners, hlaunch, Bool.not_true, Bool.false_eq_true, if_false] at hok ⊢
      have hrest := ih hok fun m b hm hle hb => by
        refine hsynced m b hm (by omega) ?_
        have hindex : m - i = m - (i + 1) + 1 := by omega
        rw [hindex, List.getElem?_cons_succ]
        exact hb
      have hrole : roleOf master i r.synchronised = .master ↔ master = some i :=
        roleOf_master fun hm => hsynced i r hm le_rfl (by rw [Nat.sub_self]; rfl)
      rw [List.countP_cons, hrest, if_pos hok]
      simp only [BoardRunner.setSyncRole, decide_eq_true_eq, hrole, List.length_cons]
      by_cases hm : master = some i
      · have hnone : ¬∃ m, master = some m ∧ i + 1 ≤ m ∧ m < i + 1 + rs.length := by
          rintro ⟨m, hm', hle, _⟩
          rw [hm, Option.some.injEq] at hm'
          omega
        have hthis : ∃ m, master = some m ∧ i ≤ m ∧ m < i + (rs.length + 1) :=
          ⟨i, hm, le_rfl, by omega⟩
        rw [if_neg hnone, if_pos hm, if_pos hthis]
      · rw [if_neg hm, Nat.add_zero]
        congr 1
        apply propext
        constructor
        · rintro ⟨m, hm', hle, hlt⟩
          exact ⟨m, hm', by omega, by omega⟩
        · rintro ⟨m, hm', hle, hlt⟩
          have hne : m ≠ i := fun heq => hm (heq ▸ hm')
          exact ⟨m, hm', by omega, by omega⟩

theorem startRunners_masters {o : ℕ → Launch} {runners : List BoardRunner}
    (hok : (startRunners o (masterIndex runners) 0 runners).1 = true) :
    (startRunners o (masterIndex runners) 0 runners).2.countP
      (fun b => b.boardInfo.syncRole = .master) =
        if runners.any (·.synchronised) then 1 else 0 := by
  rw [countP_master hok]
  · cases hmaster : masterIndex runners with
    | none =>
      have hany : runners.any (·.synchronised) = false :=
        List.any_eq_false.mpr fun b hb => by rw [masterIndex_none.mp hmaster b hb]; decide
      rw [hany]
      simp
    | some m =>
      obtain ⟨b, hb, hsynced⟩ := masterIndex_some hmaster
      obtain ⟨hm, hget⟩ := List.getElem?_eq_some_iff.mp hb
      have hany : runners.any (·.synchronised) = true :=
        List.any_eq_true.mpr ⟨b, List.mem_of_getElem? hb, hsynced⟩
      rw [hany, if_pos ⟨m, rfl, Nat.zero_le m, by omega⟩]
      rfl
  · intro m b hm _ hb
    obtain ⟨b', hb', hsynced⟩ := masterIndex_some hm
    rw [Nat.sub_zero, hb', Option.some.injEq] at hb
    exact hb ▸ hsynced

/-- What follows the setup: the launches up to the first that fails, the trigger if there
is a master and all are launched, and then the readers, or the shutdown of every board
that was launched. -/
structure Course (o : Launches) (runners : List BoardRunner) (ok : Bool)
    (launched trigger tail : List DeviceCall) : Prop where
  boards : ∃ k, launched = launchSeq o.board 0 (runners.take k)
  fired : trigger = [] ∨ ∃ m sent, trigger = [.sendSWTrigger m sent] ∧
    masterIndex runners = some m ∧ ∀ i < runners.length, Launched launched i
  going : ok = true → tail = (List.range runners.length).map .startReader ∧
    (∀ i < runners.length, Launched launched i) ∧
    ((∃ m, trigger = [.sendSWTrigger m true]) ∨ masterIndex runners = none)
  failed : ok = false → ∃ k, tail = shutdowns a k ∧ ∀ i, Launched launched i → i < k

/-- A start of boards that do not run takes the course that `Course` describes. -/
theorem launchAll_course (o : Launches) {d : Daq}
    (h : ∀ r ∈ d.runners, r.running = false ∧ r.readerUp = false) :
    ∃ launched trigger tail, Course a o d.runners (launchAll a o d).1.1 launched trigger tail ∧
      (launchAll a o d).2 = alignCalls a d.runners ++ launched ++ trigger ++ tail := by
  have hstate := launchLoop_state a o.board (masterIndex d.runners) [] 0 d.runners
  have hloop := launchLoop_calls a o.board (masterIndex d.runners) []
    (fun r hr => absurd hr List.not_mem_nil) fun r hr => (h r hr).1
  have hflags := startRunners_flags o.board (masterIndex d.runners) 0 h
  have hlength := startRunners_length o.board (masterIndex d.runners) 0 d.runners
  simp only [List.length_nil, Nat.zero_add] at hloop
  simp only [launchAll, startWriter]
  rcases hloop with ⟨htrue, hall, hcalls⟩ | ⟨hfalse, k, hk, hbefore, hfail, hcalls⟩
  · have hok : (startRunners o.board (masterIndex d.runners) 0 d.runners).1 = true := by
      rw [← htrue, hstate]
    have hrunners : (launchLoop a o.board (masterIndex d.runners) [] 0 d.runners).1.2 =
        (startRunners o.board (masterIndex d.runners) 0 d.runners).2 := by
      rw [hstate, hok]
      rfl
    have hlaunched : ∀ i < d.runners.length, Launched (launchSeq o.board 0 d.runners) i :=
      fun i hi => launched_launchSeq.mpr ⟨hi, hall i hi⟩
    have htake : launchSeq o.board 0 d.runners =
        launchSeq o.board 0 (d.runners.take d.runners.length) := by rw [List.take_length]
    simp only [htrue, hcalls, hrunners, hlength, Bool.not_true, Bool.false_eq_true, if_false]
    cases hmaster : masterIndex d.runners with
    | none =>
      refine ⟨launchSeq o.board 0 d.runners, [], (List.range d.runners.length).map .startReader,
        ⟨⟨_, htake⟩, .inl rfl, fun _ => ⟨rfl, hlaunched, .inr hmaster⟩, fun hno => ?_⟩, ?_⟩
      · exact absurd hno.symm Bool.false_ne_true
      · simp
    | some m =>
      cases htrigger : o.swTrigger with
      | true =>
        refine ⟨launchSeq o.board 0 d.runners, [.sendSWTrigger m true],
          (List.range d.runners.length).map .startReader,
          ⟨⟨_, htake⟩, .inr ⟨m, true, rfl, hmaster, hlaunched⟩,
            fun _ => ⟨rfl, hlaunched, .inl ⟨m, rfl⟩⟩, fun hno => ?_⟩, ?_⟩
        · exact absurd hno.symm Bool.false_ne_true
        · simp
      | false =>
        have hstops : stopAllCalls a
            (startRunners o.board (masterIndex d.runners) 0 d.runners).2 =
            shutdowns a d.runners.length := by
          rw [← hlength]
          exact stopAllCalls_running a fun r hr => (hflags r hr).1.trans hok
        rw [hmaster] at hstops
        refine ⟨launchSeq o.board 0 d.runners, [.sendSWTrigger m false],
          shutdowns a d.runners.length,
          ⟨⟨_, htake⟩, .inr ⟨m, false, rfl, hmaster, hlaunched⟩,
            fun hno => absurd hno Bool.false_ne_true, fun _ => ⟨_, rfl, fun i hi => ?_⟩⟩, ?_⟩
        · exact (launched_launchSeq.mp hi).1
        · simp [hstops]
  · simp only [hfalse, hcalls, Bool.not_false, if_true]
    refine ⟨launchSeq o.board 0 (d.runners.take (k + 1)), [], shutdowns a k,
      ⟨⟨_, rfl⟩, .inl rfl, fun hno => absurd hno Bool.false_ne_true, fun _ => ⟨_, rfl, fun i hi => ?_⟩⟩,
      by simp⟩
    obtain ⟨hlt, hlaunched⟩ := launched_launchSeq.mp hi
    have hne : i ≠ k := fun heq => Bool.false_ne_true (hfail.symm.trans (heq ▸ hlaunched))
    rw [List.length_take] at hlt
    omega

structure StartProtocol (runners : List BoardRunner) (r : Bool × Daq)
    (calls : List DeviceCall) : Prop where
  /-- The clock chain, as all the setup, comes before the first launch. -/
  aligned : Precedes (fun c => phase c = .setup) (fun c => phase c = .launch) calls
  armed : ∀ i ok, .arm i ok ∈ calls → ∃ b, runners[i]? = some b ∧ b.synchronised = true
  started : ∀ i ok, .start i ok ∈ calls → ∃ b, runners[i]? = some b ∧ b.synchronised = false
  once : ∀ i, calls.countP (launches i) ≤ 1
  all : r.1 = true → ∀ i < runners.length, Launched calls i
  oneTrigger : calls.countP (fun c => phase c = .trigger) ≤ 1
  trigger : ∀ xs m ok ys, calls = xs ++ .sendSWTrigger m ok :: ys →
    masterIndex runners = some m ∧ ∀ i < runners.length, Launched xs i
  /-- A board that was launched has been stopped when it is read. -/
  noRead : ∀ xs c ys i zs, calls = xs ++ c :: (ys ++ .read i :: zs) → launches i c = true →
    .stop i ∈ ys
  readers : ∀ xs i ys, calls = xs ++ .startReader i :: ys →
    (∃ m, .sendSWTrigger m true ∈ xs) ∨ ∀ b ∈ runners, b.synchronised = false
  masters : r.1 = true → r.2.runners.countP (fun b => b.boardInfo.syncRole = .master) =
    if runners.any (·.synchronised) then 1 else 0
  undone : r.1 = false → ∀ xs c ys i, calls = xs ++ c :: ys →
    c = .start i true ∨ c = .arm i true → [DeviceCall.stop i, .close i].Sublist ys
  down : r.1 = false → (∃ i, Launched calls i) →
    (∀ b ∈ r.2.runners, b.running = false ∧ b.readerUp = false) ∧
      (∀ w, r.2.writer = some w → w.closed = true) ∧ r.2.running = false

section Protocol

variable {a} {o : Launches} {runners : List BoardRunner} {ok : Bool}
  {setup launched trigger tail : List DeviceCall}

theorem Course.launched_phase (h : Course a o runners ok launched trigger tail) :
    ∀ c ∈ launched, phase c = .launch := by
  obtain ⟨k, hk⟩ := h.boards
  rw [hk]
  exact launchSeq_phase

theorem Course.trigger_phase (h : Course a o runners ok launched trigger tail) :
    ∀ c ∈ trigger, phase c = .trigger := by
  intro c hc
  rcases h.fired with hnone | ⟨m, sent, hone, _⟩
  · rw [hnone] at hc
    exact absurd hc List.not_mem_nil
  · rw [hone] at hc
    rw [List.mem_singleton.mp hc]
    rfl

theorem Course.tail_phase (h : Course a o runners ok launched trigger tail) :
    ∀ c ∈ tail, phase c = if ok then .reading else .shutdown := by
  cases ok with
  | true =>
    rw [(h.going rfl).1]
    intro c hc
    obtain ⟨i, _, rfl⟩ := List.mem_map.mp hc
    rfl
  | false =>
    obtain ⟨k, hk, _⟩ := h.failed rfl
    rw [hk]
    exact shutdowns_phase a

theorem Course.mem_launched (h : Course a o runners ok launched trigger tail)
    (hsetup : ∀ c ∈ setup, phase c = .setup) {c : DeviceCall}
    (hc : c ∈ setup ++ launched ++ trigger ++ tail) (hlaunch : phase c = .launch) :
    c ∈ launched := by
  rcases List.mem_append.mp hc with hc | hc
  · rcases List.mem_append.mp hc with hc | hc
    · rcases List.mem_append.mp hc with hc | hc
      · rw [hsetup c hc] at hlaunch
        cases hlaunch
      · exact hc
    · rw [h.trigger_phase c hc] at hlaunch
      cases hlaunch
  · rw [h.tail_phase c hc] at hlaunch
    cases ok <;> cases hlaunch

theorem Course.launchCall (h : Course a o runners ok launched trigger tail) {c : DeviceCall}
    (hc : c ∈ launched) :
    ∃ i r, runners[i]? = some r ∧ c = DeviceCalls.launchCall o.board i r := by
  obtain ⟨k, hk⟩ := h.boards
  rw [hk] at hc
  obtain ⟨i, r, hr, hcall⟩ := mem_launchSeq.mp hc
  rw [List.getElem?_take] at hr
  split at hr
  · exact ⟨i, r, hr, hcall⟩
  · cases hr

theorem Course.aligned (h : Course a o runners ok launched trigger tail)
    (hsetup : ∀ c ∈ setup, phase c = .setup) :
    Precedes (fun c => phase c = .setup) (fun c => phase c = .launch)
      (setup ++ launched ++ trigger ++ tail) := by
  rw [List.append_assoc, List.append_assoc]
  refine Precedes.append ?_ ?_
  · intro c hc hlaunch
    rw [hsetup c hc] at hlaunch
    cases hlaunch
  · intro c hc hset
    rcases List.mem_append.mp hc with hc | hc
    · rw [h.launched_phase c hc] at hset
      cases hset
    · rcases List.mem_append.mp hc with hc | hc
      · rw [h.trigger_phase c hc] at hset
        cases hset
      · rw [h.tail_phase c hc] at hset
        cases ok <;> cases hset

theorem Course.once (h : Course a o runners ok launched trigger tail)
    (hsetup : ∀ c ∈ setup, phase c = .setup) (i : ℕ) :
    (setup ++ launched ++ trigger ++ tail).countP (launches i) ≤ 1 := by
  have hother : ∀ l : List DeviceCall, (∀ c ∈ l, phase c ≠ .launch) → l.countP (launches i) = 0 :=
    fun l hl => List.countP_eq_zero.mpr fun c hc hlaunch => hl c hc (launches_phase hlaunch)
  have hfirst := hother setup fun c hc => by rw [hsetup c hc]; decide
  have hsecond := hother trigger fun c hc => by rw [h.trigger_phase c hc]; decide
  have hlast := hother tail fun c hc => by rw [h.tail_phase c hc]; cases ok <;> decide
  obtain ⟨k, hk⟩ := h.boards
  rw [List.countP_append, List.countP_append, List.countP_append, hfirst, hsecond, hlast, hk,
    countP_launchSeq]
  split <;> decide

theorem Course.oneTrigger (h : Course a o runners ok launched trigger tail)
    (hsetup : ∀ c ∈ setup, phase c = .setup) :
    (setup ++ launched ++ trigger ++ tail).countP (fun c => phase c = .trigger) ≤ 1 := by
  have hother : ∀ l : List DeviceCall, (∀ c ∈ l, phase c ≠ .trigger) →
      l.countP (fun c => phase c = .trigger) = 0 :=
    fun l hl => List.countP_eq_zero.mpr fun c hc htrigger => hl c hc (of_decide_eq_true htrigger)
  have hfirst := hother setup fun c hc => by rw [hsetup c hc]; decide
  have hsecond := hother launched fun c hc => by rw [h.launched_phase c hc]; decide
  have hlast := hother tail fun c hc => by rw [h.tail_phase c hc]; cases ok <;> decide
  have hlength : trigger.length ≤ 1 := by
    rcases h.fired with hnone | ⟨m, sent, hone, _⟩
    · rw [hnone]
      decide
    · rw [hone]
      exact le_rfl
  have hcount := (List.countP_le_length (p := fun c => phase c = .trigger) (l := trigger))
  rw [List.countP_append, List.countP_append, List.countP_append, hfirst, hsecond, hlast]
  omega

/-- When the trigger is sent, the boards have all been launched. -/
theorem Course.trigger_last (h : Course a o runners ok launched trigger tail)
    (hsetup : ∀ c ∈ setup, phase c = .setup) {xs ys : List DeviceCall} {m : ℕ} {sent : Bool}
    (hcalls : setup ++ launched ++ trigger ++ tail = xs ++ .sendSWTrigger m sent :: ys) :
    masterIndex runners = some m ∧ ∀ i < runners.length, Launched xs i := by
  have hmem : DeviceCall.sendSWTrigger m sent ∈ setup ++ launched ++ trigger ++ tail :=
    hcalls ▸ List.mem_append_right _ List.mem_cons_self
  have hbefore : ∀ c ∈ setup ++ launched, ¬phase c = .trigger := by
    intro c hc htrigger
    rcases List.mem_append.mp hc with hc | hc
    · rw [hsetup c hc] at htrigger
      cases htrigger
    · rw [h.launched_phase c hc] at htrigger
      cases htrigger
  have hsent : DeviceCall.sendSWTrigger m sent ∈ trigger := by
    rcases List.mem_append.mp hmem with hc | hc
    · rcases List.mem_append.mp hc with hc | hc
      · exact absurd rfl (hbefore _ hc)
      · exact hc
    · have hphase := h.tail_phase _ hc
      cases ok <;> cases hphase
  rcases h.fired with hnone | ⟨m', sent', hone, hmaster, hall⟩
  · rw [hnone] at hsent
    exact absurd hsent List.not_mem_nil
  · rw [hone] at hsent
    cases List.mem_singleton.mp hsent
    refine ⟨hmaster, fun i hi => ?_⟩
    have hpreceded : Preceded (fun c => phase c = .trigger)
        (fun b _ => b = .start i true ∨ b = .arm i true)
        ((setup ++ launched) ++ (trigger ++ tail)) := by
      refine (Preceded.of_none hbefore).append fun xs c ys _ _ => ?_
      rcases hall i hi with hc | hc
      · exact ⟨_, List.mem_append_left _ (List.mem_append_right _ hc), .inl rfl⟩
      · exact ⟨_, List.mem_append_left _ (List.mem_append_right _ hc), .inr rfl⟩
    rw [← List.append_assoc] at hpreceded
    obtain ⟨b, hb, hlaunch⟩ := hpreceded xs _ ys hcalls rfl
    rcases hlaunch with rfl | rfl
    · exact .inl hb
    · exact .inr hb

theorem Course.noRead (h : Course a o runners ok launched trigger tail)
    (hsetup : ∀ c ∈ setup, phase c = .setup) {xs ys zs : List DeviceCall} {c : DeviceCall} {i : ℕ}
    (hcalls : setup ++ launched ++ trigger ++ tail = xs ++ c :: (ys ++ .read i :: zs))
    (hc : launches i c = true) : .stop i ∈ ys := by
  have hfront : ∀ b ∈ setup ++ launched ++ trigger, phase b ≠ .shutdown := by
    intro b hb
    rcases List.mem_append.mp hb with hb | hb
    · rcases List.mem_append.mp hb with hb | hb
      · rw [hsetup b hb]
        decide
      · rw [h.launched_phase b hb]
        decide
    · rw [h.trigger_phase b hb]
      decide
  have hread : DeviceCall.read i ∈ (setup ++ launched ++ trigger) ++ tail := by
    rw [hcalls]
    exact List.mem_append_right _ (List.mem_cons_of_mem _
      (List.mem_append_right _ List.mem_cons_self))
  have htail : DeviceCall.read i ∈ tail :=
    (List.mem_append.mp hread).resolve_left fun hmem => hfront _ hmem rfl
  cases ok with
  | true =>
    have hphase := h.tail_phase _ htail
    cases hphase
  | false =>
    obtain ⟨k, hk, _⟩ := h.failed rfl
    have hpreceded := shutdowns_preceded a k
    rw [← hk] at hpreceded
    obtain ⟨b, hb, j, rfl, hj⟩ := hpreceded.between
      (fun b hb ⟨j, hj⟩ => hfront b hb (hj ▸ rfl))
      (P := fun c => phase c = .launch)
      (fun b hb hlaunch => by rw [h.tail_phase b hb] at hlaunch; cases hlaunch)
      hcalls (launches_phase hc) ⟨i, rfl⟩
    cases hj
    exact hb

theorem Course.readers (h : Course a o runners ok launched trigger tail)
    (hsetup : ∀ c ∈ setup, phase c = .setup) {xs ys : List DeviceCall} {i : ℕ}
    (hcalls : setup ++ launched ++ trigger ++ tail = xs ++ .startReader i :: ys) :
    (∃ m, .sendSWTrigger m true ∈ xs) ∨ ∀ b ∈ runners, b.synchronised = false := by
  have hfront : ∀ c ∈ setup ++ launched ++ trigger, ¬phase c = .reading := by
    intro c hc hreading
    rcases List.mem_append.mp hc with hc | hc
    · rcases List.mem_append.mp hc with hc | hc
      · rw [hsetup c hc] at hreading
        cases hreading
      · rw [h.launched_phase c hc] at hreading
        cases hreading
    · rw [h.trigger_phase c hc] at hreading
      cases hreading
  cases ok with
  | true =>
    rcases (h.going rfl).2.2 with ⟨m, hm⟩ | hnone
    · have hpreceded : Preceded (fun c => phase c = .reading)
          (fun b _ => b = .sendSWTrigger m true) (setup ++ launched ++ trigger ++ tail) := by
        refine (Preceded.of_none hfront).append fun xs c ys _ _ => ?_
        refine ⟨_, List.mem_append_left _ (List.mem_append_right _ ?_), rfl⟩
        rw [hm]
        exact List.mem_cons_self
      obtain ⟨b, hb, rfl⟩ := hpreceded xs _ ys hcalls rfl
      exact .inl ⟨m, hb⟩
    · exact .inr (masterIndex_none.mp hnone)
  | false =>
    have hreader : DeviceCall.startReader i ∈ (setup ++ launched ++ trigger) ++ tail :=
      hcalls ▸ List.mem_append_right _ List.mem_cons_self
    rcases List.mem_append.mp hreader with hmem | hmem
    · exact absurd rfl (hfront _ hmem)
    · have hphase := h.tail_phase _ hmem
      cases hphase

theorem Course.undone (h : Course a o runners false launched trigger tail)
    (hsetup : ∀ c ∈ setup, phase c = .setup) {xs ys : List DeviceCall} {c : DeviceCall} {i : ℕ}
    (hcalls : setup ++ launched ++ trigger ++ tail = xs ++ c :: ys)
    (hc : c = .start i true ∨ c = .arm i true) : [DeviceCall.stop i, .close i].Sublist ys := by
  have hphase : phase c = .launch := by rcases hc with rfl | rfl <;> rfl
  have hmem : c ∈ launched :=
    h.mem_launched hsetup (hcalls ▸ List.mem_append_right _ List.mem_cons_self) hphase
  have htail : c ∉ tail := by
    intro hct
    have hshutdown := h.tail_phase c hct
    rw [hphase] at hshutdown
    cases hshutdown
  have hlaunched : Launched launched i := by
    rcases hc with rfl | rfl
    · exact .inl hmem
    · exact .inr hmem
  obtain ⟨k, hk, hlt⟩ := h.failed rfl
  have hsublist := stop_close_sublist a (hlt i hlaunched)
  rw [← hk] at hsublist
  exact hsublist.trans (suffix_of_notMem hcalls htail).sublist

end Protocol

theorem launchRunners_down {o : Launches} {d : Daq} (hidle : d.running = false)
    (h : ∀ r ∈ d.runners, r.running = false ∧ r.readerUp = false)
    (hfailed : (launchRunners o d).1 = false) :
    (∀ b ∈ (launchRunners o d).2.runners, b.running = false ∧ b.readerUp = false) ∧
      (∀ w, (launchRunners o d).2.writer = some w → w.closed = true) ∧
      (launchRunners o d).2.running = false := by
  have hspec := Recording.launchRunners_spec o hidle
  have hsettled := launchRunners_settled (o := o) hidle h
  have hrunning := hspec.running.trans hfailed
  obtain ⟨_, _, hwriter, _⟩ := hspec.failed hfailed
  refine ⟨?_, ?_, hrunning⟩
  · intro b hb
    have hb' := hsettled b hb
    rwa [hrunning] at hb'
  · intro w hw
    rw [hwriter] at hw
    obtain ⟨w', _, rfl⟩ := Option.map_eq_some_iff.mp hw
    unfold RawFileWriter.close
    split
    · next hclosed => exact hclosed
    · rfl

theorem launchRunners_masters {o : Launches} {d : Daq} (hok : (launchRunners o d).1 = true) :
    (launchRunners o d).2.runners.countP (fun b => b.boardInfo.syncRole = .master) =
      if d.runners.any (·.synchronised) then 1 else 0 := by
  unfold launchRunners startWriter at hok ⊢
  dsimp only at hok ⊢
  cases hboards : (startRunners o.board (masterIndex d.runners) 0 d.runners).1 with
  | false => simp [hboards] at hok
  | true =>
    simp only [hboards, Bool.not_true, Bool.false_eq_true, if_false] at hok ⊢
    split
    · next htrigger => simp [htrigger] at hok
    · rw [← startRunners_masters hboards, List.countP_map]
      rfl

/-- A start that does not get past its setup has a course too. -/
theorem Course.unprepared (a : Answers) (o : Launches) (runners : List BoardRunner) :
    Course a o runners false [] [] [] where
  boards := ⟨0, by rw [List.take_zero]; rfl⟩
  fired := .inl rfl
  going := fun hno => absurd hno Bool.false_ne_true
  failed := fun _ => ⟨0, rfl, fun _ hi => by
    rcases hi with hi | hi <;> exact absurd hi List.not_mem_nil⟩

theorem protocol_of_course {a : Answers} {o : Launches} {runners : List BoardRunner}
    {r : Bool × Daq} {setup launched trigger tail : List DeviceCall}
    (h : Course a o runners r.1 launched trigger tail) (hsetup : ∀ c ∈ setup, phase c = .setup)
    (hmasters : r.1 = true → r.2.runners.countP (fun b => b.boardInfo.syncRole = .master) =
      if runners.any (·.synchronised) then 1 else 0)
    (hdown : r.1 = false → (∃ i, Launched launched i) →
      (∀ b ∈ r.2.runners, b.running = false ∧ b.readerUp = false) ∧
        (∀ w, r.2.writer = some w → w.closed = true) ∧ r.2.running = false) :
    StartProtocol runners r (setup ++ launched ++ trigger ++ tail) where
  aligned := h.aligned hsetup
  armed := by
    intro i ok hc
    obtain ⟨j, b, hb, hcall⟩ := h.launchCall (h.mem_launched hsetup hc rfl)
    unfold DeviceCalls.launchCall at hcall
    split at hcall
    · next hsynced =>
      injection hcall with hboard
      exact ⟨b, hboard ▸ hb, hsynced⟩
    · cases hcall
  started := by
    intro i ok hc
    obtain ⟨j, b, hb, hcall⟩ := h.launchCall (h.mem_launched hsetup hc rfl)
    unfold DeviceCalls.launchCall at hcall
    split at hcall
    · cases hcall
    · next hsynced =>
      injection hcall with hboard
      exact ⟨b, hboard ▸ hb, eq_false_of_ne_true hsynced⟩
  once := h.once hsetup
  all := by
    intro hok i hi
    rcases (h.going hok).2.1 i hi with hc | hc
    · exact .inl (List.mem_append_left _ (List.mem_append_left _ (List.mem_append_right _ hc)))
    · exact .inr (List.mem_append_left _ (List.mem_append_left _ (List.mem_append_right _ hc)))
  oneTrigger := h.oneTrigger hsetup
  trigger := fun xs m ok ys hcalls => h.trigger_last hsetup hcalls
  noRead := fun xs c ys i zs hcalls hc => h.noRead hsetup hcalls hc
  readers := fun xs i ys hcalls => h.readers hsetup hcalls
  masters := hmasters
  undone := by
    intro hfailed xs c ys i hcalls hc
    rw [hfailed] at h
    exact h.undone hsetup hcalls hc
  down := by
    rintro hfailed ⟨i, hi | hi⟩
    · exact hdown hfailed ⟨i, .inl (h.mem_launched hsetup hi rfl)⟩
    · exact hdown hfailed ⟨i, .inr (h.mem_launched hsetup hi rfl)⟩

/-- Whatever the boards answer, and whatever was called before. -/
theorem start_protocol (cfg : WriterConfig) (calls : List Call) (o : Launches) (a : Answers) :
    let d := history cfg {} calls
    let t := startDaq a cfg o d
    t.1 = d.start cfg o ∧
      if d.running then t.2 = []
      else StartProtocol (d.prepare cfg o.preparations).2.runners t.1 t.2 := by
  intro d t
  refine ⟨startDaq_state a cfg o d, ?_⟩
  have hsettled : Settled d := history_settled cfg (fun r hr => absurd hr List.not_mem_nil) calls
  cases hidle : d.running with
  | true =>
    rw [if_pos rfl]
    simp only [t, startDaq, hidle, if_true]
  | false =>
    rw [if_neg Bool.false_ne_true]
    obtain ⟨hprepared, hrunning⟩ := prepare_settled cfg o.preparations hsettled
    rw [hidle] at hrunning
    have hquiet : ∀ r ∈ (d.prepare cfg o.preparations).2.runners,
        r.running = false ∧ r.readerUp = false := by
      intro r hr
      have hr' := hprepared r hr
      rwa [hrunning] at hr'
    have hphase := prepareDaqCalls_phase o.preparations d
    cases hok : (d.prepare cfg o.preparations).1 with
    | false =>
      have ht : t = (d.prepare cfg o.preparations, prepareDaqCalls o.preparations d) := by
        simp only [t, startDaq, hidle, hok, Bool.false_eq_true, if_false, Bool.not_false, if_true]
      have hcourse := Course.unprepared a o (d.prepare cfg o.preparations).2.runners
      rw [← hok] at hcourse
      have hprotocol := protocol_of_course hcourse hphase
        (fun hyes => absurd (hok.symm.trans hyes) Bool.false_ne_true)
        (by rintro _ ⟨i, hi | hi⟩ <;> exact absurd hi List.not_mem_nil)
      rw [List.append_nil, List.append_nil, List.append_nil] at hprotocol
      rw [ht]
      exact hprotocol
    | true =>
      have ht : t = ((launchAll a o (d.prepare cfg o.preparations).2).1,
          prepareDaqCalls o.preparations d ++
            (launchAll a o (d.prepare cfg o.preparations).2).2) := by
        simp only [t, startDaq, hidle, hok, Bool.false_eq_true, if_false, Bool.not_true]
      obtain ⟨launched, trigger, tail, hcourse, hcalls⟩ := launchAll_course a o hquiet
      rw [ht, hcalls, ← List.append_assoc, ← List.append_assoc, ← List.append_assoc]
      rw [launchAll_state] at hcourse ⊢
      refine protocol_of_course hcourse ?_ launchRunners_masters
        (fun hfailed _ => launchRunners_down hrunning hquiet hfailed)
      intro c hc
      rcases List.mem_append.mp hc with hc | hc
      · exact hphase c hc
      · exact alignCalls_phase a _ c hc

/-- Two boards that wait for a signal, the second of them with register id 0. -/
example :
    let info (i : ℕ) : BoardInfo := { acquisitionControl := 1, boardRegId := 1 - i }
    let o : Launches :=
      { preparations := { board := fun i => { info := info i } }
        board := fun i => { info := info i } }
    (startDaq {} {} o (history {} {} [.addBoard { write := false }, .addBoard { write := false }])).2 =
      [.openBoard 0 true, .configure 0 true, .openBoard 1 true, .configure 1 true, .arm 0 true,
        .arm 1 true, .sendSWTrigger 1 true, .startReader 0, .startReader 1] := by
  decide

end SynchronisedStart
end CaenDaq
