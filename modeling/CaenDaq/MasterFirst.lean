import CaenDaq.SynchronisedStart

/-!
# Which board is stopped first

`Daq::stop` goes through the boards in the order in which they were added. That the
master should be stopped before its slaves is said there, but the master is chosen by
its register id, wherever it stands.
-/

namespace CaenDaq
namespace MasterFirst

open Daq DeviceCalls SynchronisedStart

/-- What the boards report of themselves by the time of the stop: a reconnect reads it
from them anew. -/
def refresh (infos : ℕ → BoardInfo) (d : Daq) : Daq :=
  { d with runners := d.runners.mapIdx fun i r => { r with digitizer := infos i } }

variable (a : Answers)

def isStop : DeviceCall → Bool
  | .stop _ => true
  | _ => false

theorem filter_shutdowns (n : ℕ) : (shutdowns a n).filter isStop = (List.range n).map .stop := by
  have hdrain : ∀ board, (drain board (a.drain board)).filter isStop = [] := by
    intro board
    rw [List.filter_eq_nil_iff]
    intro c hc
    rw [drainFrom_reads c hc]
    exact Bool.false_ne_true
  induction n with
  | zero => rfl
  | succ n ih =>
    have hsucc : shutdowns a (n + 1) = shutdowns a n ++ shutdown a n := by
      simp [shutdowns, List.range_succ]
    have hlast : (shutdown a n).filter isStop = [.stop n] := by
      rw [shutdown, List.filter_cons_of_pos rfl, List.filter_append, hdrain]
      rfl
    rw [hsucc, List.filter_append, ih, hlast, List.range_succ, List.map_append]
    rfl

theorem stop_before_iff {i j n : ℕ} (hi : i < n) (hj : j < n) :
    [DeviceCall.stop i, .stop j].Sublist (shutdowns a n) ↔ i < j := by
  constructor
  · intro h
    have hstops := h.filter isStop
    rw [filter_shutdowns] at hstops
    have hpairs : ((List.range n).map DeviceCall.stop).Pairwise
        fun b c => ∀ i j, b = .stop i → c = .stop j → i < j := by
      rw [List.pairwise_map]
      refine List.pairwise_lt_range.imp fun hlt k l hk hl => ?_
      cases hk
      cases hl
      exact hlt
    have hpair := hpairs.sublist hstops
    exact (List.pairwise_cons.mp hpair).1 (.stop j) (List.mem_cons_self) i j rfl rfl
  · intro hlt
    induction n with
    | zero => exact absurd hi (Nat.not_lt_zero i)
    | succ n ih =>
      have hsucc : shutdowns a (n + 1) = shutdowns a n ++ shutdown a n := by
        simp [shutdowns, List.range_succ]
      have hin : i < n := by omega
      rw [hsucc]
      by_cases hjn : j < n
      · exact (ih hin hjn).trans (List.sublist_append_left _ _)
      · have hlast : j = n := by omega
        have hfirst : [DeviceCall.stop i].Sublist (shutdowns a n) :=
          (List.singleton_sublist.mpr List.mem_cons_self).trans (stop_close_sublist a hin)
        rw [hlast]
        exact hfirst.append (List.singleton_sublist.mpr List.mem_cons_self)

theorem refresh_running {infos : ℕ → BoardInfo} {d : Daq} (hsettled : Settled d)
    (hrunning : d.running = true) : ∀ r ∈ (refresh infos d).runners, r.running = true := by
  intro r hr
  obtain ⟨i, hi, rfl⟩ := List.mem_mapIdx.mp hr
  exact (hsettled _ (List.getElem_mem hi)).1.trans hrunning

theorem stopDaq_calls {d : Daq} (hrunning : d.running = true)
    (hboards : ∀ r ∈ d.runners, r.running = true) :
    (stopDaq a d).2 = shutdowns a d.runners.length := by
  rw [← stopAllCalls_running a hboards]
  simp only [stopDaq, hrunning, Bool.not_true, Bool.false_eq_true, if_false]

/-- The master is stopped before every other synchronised board exactly if none of them
was added before it. -/
theorem master_stopped_first_iff (cfg : WriterConfig) (calls : List Call)
    (infos : ℕ → BoardInfo) {m : ℕ} (hrunning : (history cfg {} calls).running = true)
    (hmaster : masterIndex (refresh infos (history cfg {} calls)).runners = some m) :
    let d := refresh infos (history cfg {} calls)
    (∀ j b, d.runners[j]? = some b → b.synchronised = true → j ≠ m →
      [DeviceCall.stop m, .stop j].Sublist (stopDaq a d).2) ↔
      ∀ j b, d.runners[j]? = some b → b.synchronised = true → m ≤ j := by
  intro d
  have hsettled := history_settled cfg (d := {}) (fun r hr => absurd hr List.not_mem_nil) calls
  have hcalls := stopDaq_calls a (d := d) hrunning (refresh_running hsettled hrunning)
  obtain ⟨b, hb, _⟩ := masterIndex_some hmaster
  have hm := (List.getElem?_eq_some_iff.mp hb).1
  rw [hcalls]
  constructor
  · intro h j b hb hsynced
    by_cases hjm : j = m
    · exact hjm.ge
    · have hj := (List.getElem?_eq_some_iff.mp hb).1
      exact ((stop_before_iff a hm hj).mp (h j b hb hsynced hjm)).le
  · intro h j b hb hsynced hjm
    have hj := (List.getElem?_eq_some_iff.mp hb).1
    have hle := h j b hb hsynced
    exact (stop_before_iff a hm hj).mpr (by omega)

/-- Two boards that start on a signal, started. -/
def pair (first second : ℕ) : List Call :=
  let info (regId : ℕ) : BoardInfo := { acquisitionControl := 1, boardRegId := regId }
  let boards (i : ℕ) : BoardInfo := info (if i = 0 then first else second)
  [.addBoard { write := false }, .addBoard { write := false },
    .start { preparations := { board := fun i => { info := boards i } }
             board := fun i => { info := boards i } }]

theorem master_stopped_first_in_order :
    (∀ j b, (refresh (fun _ => { acquisitionControl := 1 })
        (history {} {} (pair 0 1))).runners[j]? = some b → b.synchronised = true → j ≠ 0 →
      [DeviceCall.stop 0, .stop j].Sublist (stopDaq {} (refresh
        (fun _ => { acquisitionControl := 1 }) (history {} {} (pair 0 1)))).2) ↔
      ∀ j b, (refresh (fun _ => { acquisitionControl := 1 })
        (history {} {} (pair 0 1))).runners[j]? = some b → b.synchronised = true → 0 ≤ j :=
  master_stopped_first_iff {} {} (pair 0 1) (fun _ => { acquisitionControl := 1 }) (by decide)
    (by decide)

/-- The board with register id 0 was added last: its slave is stopped first. -/
theorem master_stopped_last :
    (history {} {} (pair 1 0)).running = true ∧
      masterIndex (history {} {} (pair 1 0)).runners = some 1 ∧
      (history {} {} (pair 1 0)).runners.all (·.synchronised) = true ∧
      ¬[DeviceCall.stop 1, .stop 0].Sublist (stopDaq {} (history {} {} (pair 1 0))).2 := by
  decide

end MasterFirst
end CaenDaq
