import CaenDaq.ClockSync
import Mathlib.Algebra.Group.Action.Defs
import Mathlib.Algebra.Order.BigOperators.Group.List
import Mathlib.Algebra.Order.Ring.Nat
import Mathlib.Data.List.GetD
import Mathlib.Data.List.Nodup
import Mathlib.Logic.Function.Basic

/-!
# What the alignment of the clock chain guarantees

The order of the chain, the order of the accesses to the boards, and what it means that a
board is reported as locked. The last is stated over any interleaving of the accesses with
losses of lock: the status bit a board is judged by is a latch, so what it shows at the end
of the watch is what has happened during it.
-/

namespace CaenDaq
namespace ClockChain

open ClockSync

theorem and_bit_iff (x : Word) {i : ℕ} (hi : i < 32) :
    x &&& (1 : Word) <<< i ≠ 0 ↔ x.getLsbD i = true := by
  have hone : (1 : Word) <<< i = BitVec.twoPow 32 i := (BitVec.twoPow_eq 32 i).symm
  have hbit : BitVec.twoPow 32 i ≠ 0 := by
    intro hzero
    have hget := congrArg (fun y : Word => y.getLsbD i) hzero
    rw [BitVec.getLsbD_twoPow, decide_eq_true hi, decide_eq_true rfl] at hget
    exact absurd hget (by simp)
  rw [hone, BitVec.and_twoPow]
  by_cases h : x.getLsbD i = true
  · rw [if_pos h]
    exact iff_of_true hbit h
  · rw [if_neg h]
    exact iff_of_false (fun hne => hne rfl) h

def External (acquisitionControl : List Word) (i : ℕ) : Prop :=
  ∃ acq, acquisitionControl[i]? = some acq ∧ acq.getLsbD 6 = true

theorem selectsExternalClock_iff (acq : Word) :
    selectsExternalClock acq = true ↔ acq.getLsbD 6 = true := by
  rw [selectsExternalClock, decide_eq_true_iff]
  exact and_bit_iff acq (by decide)

theorem any_external_iff (acqs : List Word) :
    acqs.any selectsExternalClock = true ↔ ∃ i, External acqs i := by
  rw [List.any_eq_true]
  constructor
  · rintro ⟨acq, hmem, hsel⟩
    obtain ⟨i, hi, rfl⟩ := List.getElem_of_mem hmem
    exact ⟨i, _, List.getElem?_eq_getElem hi, (selectsExternalClock_iff _).mp hsel⟩
  · rintro ⟨i, acq, hacq, hbit⟩
    exact ⟨acq, List.mem_of_getElem? hacq, (selectsExternalClock_iff acq).mpr hbit⟩

theorem external_iff (acqs : List Word) (i : ℕ) :
    External acqs i ↔ i < acqs.length ∧ selectsExternalClock (acqs.getD i 0) = true := by
  constructor
  · rintro ⟨acq, hacq, hbit⟩
    obtain ⟨hi, rfl⟩ := List.getElem?_eq_some_iff.mp hacq
    refine ⟨hi, ?_⟩
    rw [List.getD_eq_getElem _ _ hi]
    exact (selectsExternalClock_iff _).mpr hbit
  · rintro ⟨hi, hsel⟩
    rw [List.getD_eq_getElem _ _ hi] at hsel
    exact ⟨_, List.getElem?_eq_getElem hi, (selectsExternalClock_iff _).mp hsel⟩

theorem clockChainOrder_spec (acqs : List Word) (masterIndex : Option ℕ)
    (h : ∃ i, External acqs i) :
    ∃ others, clockChainOrder acqs masterIndex =
        (masterIndex.filter (· < acqs.length)).toList ++ others ∧
      others.Pairwise (· < ·) ∧ ∀ i, i ∈ others ↔ External acqs i ∧ masterIndex ≠ some i := by
  refine ⟨_, by rw [clockChainOrder, (any_external_iff acqs).mpr h]; rfl,
    List.Pairwise.filter _ List.pairwise_lt_range, fun i => ?_⟩
  rw [List.mem_filter, List.mem_range, Bool.and_eq_true, decide_eq_true_iff, external_iff]
  constructor
  · rintro ⟨hi, hmaster, hsel⟩
    refine ⟨⟨hi, hsel⟩, ?_⟩
    rintro rfl
    exact hmaster (by rw [Option.filter_some, if_pos (decide_eq_true hi)])
  · rintro ⟨⟨hi, hsel⟩, hmaster⟩
    refine ⟨hi, fun hsome => hmaster ?_, hsel⟩
    exact (Option.filter_eq_some_iff.mp hsome).1

theorem clockChainOrder_nil (acqs : List Word) (masterIndex : Option ℕ) :
    clockChainOrder acqs masterIndex = [] ↔ ¬∃ i, External acqs i := by
  constructor
  · intro hnil h
    obtain ⟨others, horder, _, hmem⟩ := clockChainOrder_spec acqs masterIndex h
    rw [hnil] at horder
    obtain ⟨hmaster, rfl⟩ := List.append_eq_nil_iff.mp horder.symm
    obtain ⟨i, hi⟩ := h
    have hlt := ((external_iff acqs i).mp hi).1
    have hnone : masterIndex ≠ some i := by
      rintro rfl
      rw [Option.filter_some, if_pos (decide_eq_true hlt)] at hmaster
      exact absurd hmaster (List.cons_ne_nil i [])
    exact absurd ((hmem i).mpr ⟨hi, hnone⟩) List.not_mem_nil
  · intro h
    rw [clockChainOrder, eq_false_of_ne_true (mt (any_external_iff acqs).mp h)]
    rfl

theorem clockChainOrder_nodup (acqs : List Word) (masterIndex : Option ℕ) :
    (clockChainOrder acqs masterIndex).Nodup := by
  by_cases h : ∃ i, External acqs i
  · obtain ⟨others, horder, hsorted, hmem⟩ := clockChainOrder_spec acqs masterIndex h
    rw [horder, List.nodup_append]
    refine ⟨?_, hsorted.imp fun hlt => hlt.ne, ?_⟩
    · cases masterIndex.filter (· < acqs.length) with
      | none => exact List.nodup_nil
      | some m => exact List.nodup_singleton m
    · intro m hm i hi
      rintro rfl
      have hmaster := (Option.filter_eq_some_iff.mp (Option.mem_toList.mp hm)).1
      exact ((hmem m).mp hi).2 hmaster
  · rw [(clockChainOrder_nil acqs masterIndex).mpr h]
    exact List.nodup_nil

section Accesses

variable (world : ℕ → RegisterReply) (options : ClockSyncOptions)

/-- The state of a board after its command, and what the command leaves in the log. -/
def commanded (c : ClockChainBoard × RegisterReply) : ClockLockState :=
  { master := c.1.master, synced := c.2.ok }

def command (c : ClockChainBoard × RegisterReply) : RegisterAccess × RegisterReply :=
  (.write c.1.board kRegSoftwareClockSync 1, c.2)

theorem realign_spec (chain : List ClockChainBoard) (log : RegisterLog) :
    ∃ cs : List (ClockChainBoard × RegisterReply), cs.map Prod.fst = chain ∧
      realign world chain log = (cs.map commanded, log ++ cs.map command) := by
  induction chain generalizing log with
  | nil => exact ⟨[], rfl, by rw [realign, List.map_nil, List.map_nil, List.append_nil]⟩
  | cons b chain ih =>
    obtain ⟨cs, hchain, hrest⟩ := ih (log ++ [command (b, world log.length)])
    refine ⟨(b, world log.length) :: cs, by rw [List.map_cons, hchain], ?_⟩
    rw [realign]
    show (_ :: (realign world chain (log ++ [command (b, world log.length)])).1,
      (realign world chain (log ++ [command (b, world log.length)])).2) = _
    rw [hrest, List.append_assoc]
    rfl

/-- The poll only reads the status, and not for ever. -/
theorem pollReady_spec (board waited : ℕ) (statusRead : Bool) (status : Word) (log : RegisterLog) :
    ∃ es : RegisterLog, (pollReady world options board waited statusRead status log).2 = log ++ es ∧
      (∀ e ∈ es, e.1 = .read board kRegAcquisitionStatus) ∧
      es.length ≤ (options.readyTimeoutMs - waited + (options.pollMs - 1)) / options.pollMs + 1 := by
  fun_induction pollReady world options board waited statusRead status log with
  | case1 waited statusRead status log r statusRead' status' hready =>
    exact ⟨[(.read board kRegAcquisitionStatus, world log.length)], rfl, by simp, by simp⟩
  | case2 waited statusRead status log r statusRead' status' hready htimeout =>
    exact ⟨[(.read board kRegAcquisitionStatus, world log.length)], rfl, by simp, by simp⟩
  | case3 waited statusRead status log r statusRead' status' hready htimeout ih =>
    obtain ⟨es, hlog, hreads, hlength⟩ := ih
    refine ⟨(.read board kRegAcquisitionStatus, world log.length) :: es, ?_, ?_, ?_⟩
    · exact hlog.trans (List.append_assoc _ _ _)
    · exact List.forall_mem_cons.mpr ⟨rfl, hreads⟩
    · have hpos := options.pollMs_pos
      have hround : (options.readyTimeoutMs - (waited + options.pollMs) + (options.pollMs - 1)) /
          options.pollMs + 1 ≤ (options.readyTimeoutMs - waited + (options.pollMs - 1)) /
            options.pollMs := by
        rw [← Nat.add_div_right _ hpos]
        rcases Nat.le_total options.pollMs (options.readyTimeoutMs - waited) with hle | hle
        · exact Nat.div_le_div_right (by omega)
        · have hone : (options.readyTimeoutMs - (waited + options.pollMs) + (options.pollMs - 1) +
              options.pollMs) / options.pollMs < 2 := Nat.div_lt_of_lt_mul (by omega)
          have htwo : 1 ≤ (options.readyTimeoutMs - waited + (options.pollMs - 1)) /
              options.pollMs := (Nat.le_div_iff_mul_le hpos).mpr (by omega)
          omega
      rw [List.length_cons]
      omega

/-- What the watch of one board does: the accesses it makes, and what it concludes. -/
structure Watched (b : ClockChainBoard) (s s' : ClockLockState) (es : RegisterLog) : Prop where
  master : s'.master = s.master
  synced : s'.synced = s.synced
  reads : ∀ e ∈ es, e.1 = .read b.board kRegAcquisitionStatus ∨ e.1 = .read b.board kRegVmeStatus
  few : es.length ≤ options.readyTimeoutMs / options.pollMs + 4
  judged : s'.ok = true → ∃ polls rearm status,
    es = polls ++ [(.read b.board kRegVmeStatus, rearm),
      (.read b.board kRegAcquisitionStatus, status)] ∧
    (∀ e ∈ polls, e.1 = .read b.board kRegAcquisitionStatus) ∧ status.ok = true ∧
      status.value.getLsbD 8 = true ∧ status.value.getLsbD 7 = true ∧
      (s.master = true ∨ status.value.getLsbD 5 = true)

def judge (s : ClockLockState) (ready : Bool) (status : RegisterReply) : ClockLockState :=
  if status.ok then
    { s with
      statusRead := true
      ready := status.value &&& kAcqStatusBoardReady ≠ 0
      stable := status.value &&& kAcqStatusNoPllUnlock ≠ 0
      external := status.value &&& kAcqStatusExternalClock ≠ 0 }
  else { s with statusRead := false, ready := ready }

theorem watch_answered (b : ClockChainBoard) (s : ClockLockState) (log : RegisterLog)
    (h : (pollReady world options b.board 0 false 0 log).1.1 = true) :
    ∃ ready rearm status, watch world options b s log = (judge s ready status,
      (pollReady world options b.board 0 false 0 log).2 ++
        [(.read b.board kRegVmeStatus, rearm), (.read b.board kRegAcquisitionStatus, status)]) := by
  generalize hp : pollReady world options b.board 0 false 0 log = p at h
  refine ⟨p.1.2 &&& kAcqStatusBoardReady ≠ 0, world p.2.length, world (p.2.length + 1), ?_⟩
  simp only [watch, hp, h, access, List.length_append, List.length_singleton, judge]
  cases (world (p.2.length + 1)).ok with
  | true => simp
  | false => simp

theorem watch_unanswered (b : ClockChainBoard) (s : ClockLockState) (log : RegisterLog)
    (h : (pollReady world options b.board 0 false 0 log).1.1 = false) :
    watch world options b s log = (s, (pollReady world options b.board 0 false 0 log).2) := by
  simp only [watch, h]
  rfl

theorem judge_ok {s : ClockLockState} {ready : Bool} {status : RegisterReply}
    (h : (judge s ready status).ok = true) : status.ok = true ∧
      status.value.getLsbD 8 = true ∧ status.value.getLsbD 7 = true ∧
      (s.master = true ∨ status.value.getLsbD 5 = true) := by
  unfold judge at h
  split at h
  · rename_i hok
    simp only [ClockLockState.ok, Bool.and_eq_true, Bool.or_eq_true, decide_eq_true_eq] at h
    obtain ⟨⟨⟨_, hready⟩, hstable⟩, hexternal⟩ := h
    exact ⟨hok, (and_bit_iff _ (by decide)).mp hready, (and_bit_iff _ (by decide)).mp hstable,
      hexternal.imp id (and_bit_iff _ (by decide)).mp⟩
  · simp [ClockLockState.ok] at h

theorem judge_frame (s : ClockLockState) (ready : Bool) (status : RegisterReply) :
    (judge s ready status).master = s.master ∧ (judge s ready status).synced = s.synced := by
  unfold judge
  split
  · exact ⟨rfl, rfl⟩
  · exact ⟨rfl, rfl⟩

theorem watch_spec (b : ClockChainBoard) {s : ClockLockState} (hs : s.statusRead = false)
    (log : RegisterLog) : ∃ es, (watch world options b s log).2 = log ++ es ∧
      Watched options b s (watch world options b s log).1 es := by
  obtain ⟨polls, hlog, hpolls, hfew⟩ := pollReady_spec world options b.board 0 false 0 log
  have hfew' : polls.length ≤ options.readyTimeoutMs / options.pollMs + 2 := by
    have hdiv : (options.readyTimeoutMs - 0 + (options.pollMs - 1)) / options.pollMs ≤
        options.readyTimeoutMs / options.pollMs + 1 := by
      rw [← Nat.add_div_right _ options.pollMs_pos]
      exact Nat.div_le_div_right (by omega)
    omega
  cases hread : (pollReady world options b.board 0 false 0 log).1.1 with
  | true =>
    obtain ⟨ready, rearm, status, hwatch⟩ := watch_answered world options b s log hread
    rw [hwatch, hlog]
    refine ⟨polls ++ [(.read b.board kRegVmeStatus, rearm),
      (.read b.board kRegAcquisitionStatus, status)], List.append_assoc _ _ _,
      (judge_frame s ready status).1, (judge_frame s ready status).2, fun e he => ?_, ?_,
      fun hok => ⟨polls, rearm, status, rfl, hpolls, judge_ok hok⟩⟩
    · rcases List.mem_append.mp he with he | he
      · exact Or.inl (hpolls e he)
      · rcases List.mem_pair.mp he with rfl | rfl
        · exact Or.inr rfl
        · exact Or.inl rfl
    · rw [List.length_append]
      exact Nat.add_le_add_right hfew' 2
  | false =>
    rw [watch_unanswered world options b s log hread]
    refine ⟨polls, hlog, rfl, rfl, fun e he => Or.inl (hpolls e he),
      hfew'.trans (Nat.le_add_right _ 2), fun hok => ?_⟩
    simp [ClockLockState.ok, hs] at hok

structure Watching where
  board : ClockChainBoard
  reply : RegisterReply
  state : ClockLockState
  reads : RegisterLog

theorem watchAll_spec (cs : List (ClockChainBoard × RegisterReply)) (log : RegisterLog) :
    ∃ ws : List Watching, ws.map (fun w => (w.board, w.reply)) = cs ∧
      watchAll world options (cs.map fun c => (c.1, commanded c)) log =
        (ws.map Watching.state, log ++ (ws.map Watching.reads).flatten) ∧
      ∀ w ∈ ws, Watched options w.board (commanded (w.board, w.reply)) w.state w.reads := by
  induction cs generalizing log with
  | nil => exact ⟨[], rfl, by simp [watchAll], fun w hw => absurd hw List.not_mem_nil⟩
  | cons c cs ih =>
    obtain ⟨es, hlog, hwatched⟩ := watch_spec world options c.1 (s := commanded c) rfl log
    obtain ⟨ws, hcs, hrest, hall⟩ := ih (watch world options c.1 (commanded c) log).2
    refine ⟨⟨c.1, c.2, (watch world options c.1 (commanded c) log).1, es⟩ :: ws, ?_, ?_,
      List.forall_mem_cons.mpr ⟨hwatched, hall⟩⟩
    · rw [List.map_cons, hcs]
    · rw [List.map_cons, watchAll]
      show (_ :: (watchAll world options _ (watch world options c.1 (commanded c) log).2).1,
        (watchAll world options _ (watch world options c.1 (commanded c) log).2).2) = _
      rw [hrest, hlog, List.append_assoc]
      rfl

theorem synchronise_spec (chain : List ClockChainBoard) :
    ∃ ws : List Watching, ws.map Watching.board = chain ∧
      synchroniseClockChain world options chain = (ws.map Watching.state,
        ws.map (fun w => command (w.board, w.reply)) ++ (ws.map Watching.reads).flatten) ∧
      ∀ w ∈ ws, Watched options w.board (commanded (w.board, w.reply)) w.state w.reads := by
  obtain ⟨cs, rfl, hrealign⟩ := realign_spec world chain []
  obtain ⟨ws, rfl, hwatch, hall⟩ := watchAll_spec world options cs (cs.map command)
  refine ⟨ws, ?_, ?_, hall⟩
  · rw [List.map_map]
    rfl
  · rw [synchroniseClockChain, hrealign]
    show watchAll world options (List.zip _ _) _ = _
    rw [List.zip_map']
    exact hwatch.trans (by rw [List.map_map]; rfl)

end Accesses

/-- What happens to the boards: an access, or a loss of lock that nobody sees. -/
inductive Happening
  | access (e : RegisterAccess × RegisterReply)
  | unlock (board : ℕ)

def accessOf : Happening → Option (RegisterAccess × RegisterReply)
  | .access e => some e
  | .unlock _ => none

/-- Bit 7 of the status of each board is a latch: a read of 0xEF04 sets it, if it gets
through, and a loss of lock clears it. -/
def Latched (latch : ℕ → Bool) : List Happening → Prop
  | [] => True
  | .unlock board :: history => Latched (Function.update latch board false) history
  | .access (.write _ _ _, _) :: history => Latched latch history
  | .access (.read board address, reply) :: history =>
    if address = kRegVmeStatus then
      Latched (Function.update latch board true) history ∨
        (reply.ok = false ∧ Latched latch history)
    else if address = kRegAcquisitionStatus then
      (reply.ok = true → reply.value.getLsbD 7 = latch board) ∧ Latched latch history
    else Latched latch history

theorem Latched.later {latch : ℕ → Bool} {before history : List Happening}
    (h : Latched latch (before ++ history)) : ∃ latch', Latched latch' history := by
  induction before generalizing latch with
  | nil => exact ⟨latch, h⟩
  | cons x before ih =>
    rw [List.cons_append] at h
    cases x with
    | unlock board => exact ih h
    | access e =>
      obtain ⟨access, reply⟩ := e
      cases access with
      | write board address value => exact ih h
      | read board address =>
        rw [Latched] at h
        split at h
        · exact h.elim ih fun h => ih h.2
        · split at h
          · exact ih h.2
          · exact ih h

/-- Without accesses a latch that is clear stays clear, and a loss of lock clears it. -/
theorem Latched.unlocks {latch : ℕ → Bool} {during history : List Happening}
    (hnone : ∀ x ∈ during, accessOf x = none) (h : Latched latch (during ++ history))
    (board : ℕ) : ∃ latch', Latched latch' history ∧ (latch board = false → latch' board = false) ∧
      (.unlock board ∈ during → latch' board = false) := by
  induction during generalizing latch with
  | nil => exact ⟨latch, h, id, fun hmem => absurd hmem List.not_mem_nil⟩
  | cons x during ih =>
    obtain ⟨hx, hrest⟩ := List.forall_mem_cons.mp hnone
    cases x with
    | access e => cases hx
    | unlock board' =>
      obtain ⟨latch', hlatched, hclear, hunlock⟩ := ih hrest h
      refine ⟨latch', hlatched, fun hoff => hclear ?_, fun hmem => ?_⟩
      · rw [Function.update_apply]
        split
        · rfl
        · exact hoff
      · rcases List.mem_cons.mp hmem with hsame | hmem
        · cases hsame
          exact hclear (Function.update_self _ _ _)
        · exact hunlock hmem

/-- The log shows the board's command accepted, and its last status with Board Ready, an
armed latch and, unless it is the master, the external clock. -/
structure Locked (log : RegisterLog) (b : ClockChainBoard) : Prop where
  accepted : ∃ reply, reply.ok = true ∧ (.write b.board kRegSoftwareClockSync 1, reply) ∈ log
  judged : ∃ before rearm status after,
    log = before ++ (.read b.board kRegVmeStatus, rearm) ::
      (.read b.board kRegAcquisitionStatus, status) :: after ∧
    (∀ e ∈ before, e.1 ≠ .read b.board kRegVmeStatus) ∧
    (∀ e ∈ after, ∀ address, e.1 ≠ .read b.board address) ∧
    status.ok = true ∧ status.value.getLsbD 8 = true ∧ status.value.getLsbD 7 = true ∧
      (b.master = true ∨ status.value.getLsbD 5 = true)

/-- In whatever happened to the boards, none was lost between the board's only read of
0xEF04 and the last read of its status. -/
def Undisturbed (log : RegisterLog) (board : ℕ) : Prop :=
  ∀ history latch, history.filterMap accessOf = log → Latched latch history →
    ∃ before rearm during status after,
      history = before ++ .access (.read board kRegVmeStatus, rearm) ::
        (during ++ .access (.read board kRegAcquisitionStatus, status) :: after) ∧
      (∀ e, .access e ∈ before ++ during ++ after → e.1 ≠ .read board kRegVmeStatus) ∧
      (∀ e, .access e ∈ after → e.1 ≠ .read board kRegAcquisitionStatus) ∧
      .unlock board ∉ during

theorem Locked.undisturbed {log : RegisterLog} {b : ClockChainBoard} (h : Locked log b) :
    Undisturbed log b.board := by
  intro history latch hlog hlatched
  obtain ⟨before, rearm, status, after, hsplit, hbefore, hafter, hok, _, hbit, _⟩ := h.judged
  rw [hsplit] at hlog
  obtain ⟨h1, rest, rfl, hh1, hrest⟩ := List.filterMap_eq_append_iff.mp hlog
  obtain ⟨h2, x, rest', rfl, hh2, hx, hrest'⟩ := List.filterMap_eq_cons_iff.mp hrest
  obtain ⟨h3, y, h4, rfl, hh3, hy, hh4⟩ := List.filterMap_eq_cons_iff.mp hrest'
  have haccess : ∀ {x : Happening} {e}, accessOf x = some e → x = .access e := by
    intro x e hxe
    cases x with
    | access e' => rw [Option.some.inj hxe]
    | unlock board => cases hxe
  obtain rfl := haccess hx
  obtain rfl := haccess hy
  have hin : ∀ {hs : List Happening} {es : RegisterLog}, hs.filterMap accessOf = es →
      ∀ e, .access e ∈ hs → e ∈ es := by
    intro hs es hes e he
    rw [← hes]
    exact List.mem_filterMap.mpr ⟨_, he, rfl⟩
  have hnone : ∀ {hs : List Happening}, (∀ x ∈ hs, accessOf x = none) → ∀ e, .access e ∉ hs :=
    fun hall e he => Option.some_ne_none e (hall _ he)
  refine ⟨h1 ++ h2, rearm, h3, status, h4, by simp, fun e he => ?_, fun e he => ?_,
    fun hunlock => ?_⟩
  · simp only [List.mem_append] at he
    rcases he with ((he | he) | he) | he
    · exact hbefore e (hin hh1 e he)
    · exact absurd he (hnone hh2 e)
    · exact absurd he (hnone hh3 e)
    · exact hafter e (hin hh4 e he) _
  · exact hafter e (hin hh4 e he) _
  · -- the latch would be clear at the last read of the status
    rw [← List.append_assoc] at hlatched
    obtain ⟨latch1, hlatched⟩ := hlatched.later
    rw [Latched, if_pos rfl] at hlatched
    obtain ⟨latch2, hlatched⟩ : ∃ latch2, Latched latch2
        (h3 ++ .access (.read b.board kRegAcquisitionStatus, status) :: h4) :=
      hlatched.elim (fun h => ⟨_, h⟩) fun h => ⟨_, h.2⟩
    obtain ⟨latch3, hlatched, _, hclear⟩ := hlatched.unlocks hh3 b.board
    rw [Latched, if_neg (by decide), if_pos rfl] at hlatched
    exact absurd ((hlatched.1 hok).symm.trans hbit) (by rw [hclear hunlock]; decide)

def chainOf (order : List ℕ) (masterIndex : Option ℕ) : List ClockChainBoard :=
  order.map fun i => { board := i, master := masterIndex = some i }

theorem locked_of_ok {options : ClockSyncOptions} {ws : List Watching}
    (hnodup : (ws.map fun w => w.board.board).Nodup)
    (hall : ∀ w ∈ ws, Watched options w.board (commanded (w.board, w.reply)) w.state w.reads)
    {w : Watching} (hw : w ∈ ws) (hok : w.state.ok = true) :
    Locked (ws.map (fun w => command (w.board, w.reply)) ++ (ws.map Watching.reads).flatten)
      w.board := by
  obtain ⟨polls, rearm, status, hreads, hpolls, hanswered, hready, hstable, hexternal⟩ :=
    (hall w hw).judged hok
  have haccepted : w.reply.ok = true := by
    have hsynced := (hall w hw).synced
    simp only [ClockLockState.ok, Bool.and_eq_true] at hok
    exact hsynced.symm.trans hok.1.1.1.1
  refine ⟨⟨w.reply, haccepted, List.mem_append_left _ (List.mem_map.mpr ⟨w, hw, rfl⟩)⟩, ?_⟩
  obtain ⟨before, after, rfl⟩ := List.append_of_mem hw
  rw [List.map_append, List.map_cons, List.nodup_append, List.nodup_cons] at hnodup
  obtain ⟨_, ⟨hafter, _⟩, hbefore⟩ := hnodup
  have hother : ∀ vs : List Watching, vs ⊆ before ++ w :: after →
      (∀ v ∈ vs, v.board.board ≠ w.board.board) → ∀ e ∈ (vs.map Watching.reads).flatten,
        ∀ address, e.1 ≠ .read w.board.board address := by
    intro vs hsub hne e he address hsame
    obtain ⟨reads, hreads, he⟩ := List.mem_flatten.mp he
    obtain ⟨v, hv, rfl⟩ := List.mem_map.mp hreads
    rcases (hall v (hsub hv)).reads e he with hread | hread
    · exact hne v hv (RegisterAccess.read.inj (hread.symm.trans hsame)).1
    · exact hne v hv (RegisterAccess.read.inj (hread.symm.trans hsame)).1
  refine ⟨(before ++ w :: after).map (fun w => command (w.board, w.reply)) ++
      ((before.map Watching.reads).flatten ++ polls), rearm, status,
      (after.map Watching.reads).flatten, ?_, ?_, ?_, hanswered, hready, hstable, ?_⟩
  · have hflat : ((before ++ w :: after).map Watching.reads).flatten =
        (before.map Watching.reads).flatten ++ (w.reads ++ (after.map Watching.reads).flatten) := by
      rw [List.map_append, List.map_cons, List.flatten_append, List.flatten_cons]
    rw [hflat, hreads]
    simp only [List.append_assoc, List.cons_append, List.nil_append]
  · intro e he
    rcases List.mem_append.mp he with he | he
    · obtain ⟨v, _, rfl⟩ := List.mem_map.mp he
      exact fun hno => by cases hno
    · rcases List.mem_append.mp he with he | he
      · exact hother before (List.subset_append_left _ _)
          (fun v hv => hbefore _ (List.mem_map_of_mem hv) _ List.mem_cons_self) e he _
      · rw [hpolls e he]
        exact fun hsame => absurd (RegisterAccess.read.inj hsame).2 (by decide)
  · exact hother after (fun v hv => List.mem_append_right _ (List.mem_cons_of_mem _ hv))
      fun v hv hsame => hafter (List.mem_map.mpr ⟨v, hv, hsame⟩)
  · exact hexternal

/-- The chain is ordered and complete, its alignment ends, commands every board once and
before any status is read, and reports as locked only what was seen to be. -/
theorem clock_chain_aligned (world : ℕ → RegisterReply) (options : ClockSyncOptions)
    (acqs : List Word) (masterIndex : Option ℕ) :
    let order := clockChainOrder acqs masterIndex
    let r := synchroniseClockChain world options (chainOf order masterIndex)
    (order = [] ↔ ¬∃ i, External acqs i) ∧
    ((∃ i, External acqs i) → ∃ others,
      order = (masterIndex.filter (· < acqs.length)).toList ++ others ∧
      others.Pairwise (· < ·) ∧ ∀ i, i ∈ others ↔ External acqs i ∧ masterIndex ≠ some i) ∧
    (∃ commands reads, r.2 = commands ++ reads ∧
      commands.map Prod.fst = order.map (.write · kRegSoftwareClockSync 1) ∧
      ∀ e ∈ reads, ∃ board address, e.1 = .read board address) ∧
    r.2.length ≤ order.length * (options.readyTimeoutMs / options.pollMs + 5) ∧
    r.1.map ClockLockState.master = order.map (fun i => decide (masterIndex = some i)) ∧
    ∀ (k i : ℕ) (s : ClockLockState), order[k]? = some i → r.1[k]? = some s → s.ok = true →
      Locked r.2 { board := i, master := masterIndex = some i } ∧ Undisturbed r.2 i := by
  intro order r
  obtain ⟨ws, hchain, hsync, hall⟩ := synchronise_spec world options (chainOf order masterIndex)
  have horder : ws.map (fun w => w.board.board) = order := by
    have hboards := congrArg (List.map ClockChainBoard.board) hchain
    rwa [chainOf, List.map_map, List.map_map, Function.comp_def, Function.comp_def,
      List.map_id'] at hboards
  have hlog : r.2 = ws.map (fun w => command (w.board, w.reply)) ++
      (ws.map Watching.reads).flatten := congrArg Prod.snd hsync
  have hstates : r.1 = ws.map Watching.state := congrArg Prod.fst hsync
  refine ⟨clockChainOrder_nil acqs masterIndex, clockChainOrder_spec acqs masterIndex,
    ⟨_, _, hlog, ?_, ?_⟩, ?_, ?_, ?_⟩
  · rw [← horder, List.map_map, List.map_map]
    rfl
  · intro e he
    obtain ⟨reads, hreads, he⟩ := List.mem_flatten.mp he
    obtain ⟨w, hw, rfl⟩ := List.mem_map.mp hreads
    exact ((hall w hw).reads e he).elim (fun h => ⟨_, _, h⟩) fun h => ⟨_, _, h⟩
  · have hfew : ((ws.map Watching.reads).flatten).length ≤
        ws.length * (options.readyTimeoutMs / options.pollMs + 4) := by
      rw [List.length_flatten, List.map_map]
      have hsum := List.sum_le_card_nsmul (ws.map (List.length ∘ Watching.reads))
        (options.readyTimeoutMs / options.pollMs + 4)
        fun n hn => by
          obtain ⟨w, hw, rfl⟩ := List.mem_map.mp hn
          exact (hall w hw).few
      rwa [List.length_map, smul_eq_mul] at hsum
    rw [hlog, ← horder, List.length_append, List.length_map, List.length_map]
    calc ws.length + ((ws.map Watching.reads).flatten).length
        ≤ ws.length + ws.length * (options.readyTimeoutMs / options.pollMs + 4) :=
          Nat.add_le_add_left hfew _
      _ = ws.length * (options.readyTimeoutMs / options.pollMs + 5) := by
          rw [Nat.add_comm, ← Nat.mul_succ]
  · rw [hstates, List.map_map]
    have hmasters := congrArg (List.map ClockChainBoard.master) hchain
    rw [chainOf, List.map_map, List.map_map] at hmasters
    exact (List.map_congr_left fun w hw => (hall w hw).master).trans hmasters
  · intro k i s hi hs hok
    rw [hstates, List.getElem?_map] at hs
    obtain ⟨w, hw, rfl⟩ := Option.map_eq_some_iff.mp hs
    have hboard : w.board = { board := i, master := masterIndex = some i } := by
      have hk := congrArg (·[k]?) hchain
      simp only [chainOf, List.getElem?_map, hw, hi, Option.map_some] at hk
      exact Option.some.inj hk
    have hlocked := locked_of_ok (by rw [horder]; exact clockChainOrder_nodup acqs masterIndex)
      hall (List.mem_of_getElem? hw) hok
    rw [hlog]
    rw [hboard] at hlocked
    exact ⟨hlocked, hlocked.undisturbed⟩

end ClockChain
end CaenDaq
