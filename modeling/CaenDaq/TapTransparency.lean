import CaenDaq.FileDecode
import CaenDaq.TapSteps

/-!
# The decode tap stands aside

With decode stages or without, the readout runs the same: a stage never holds up a reader,
the writer or the stop, and nothing of it reaches the files. The one wait for a stage, at the
end of `BoardRunner::stop`, is for a thread that always comes to its end.
-/

namespace CaenDaq
namespace Tapped

open Readout Transition OnlineSpectra
open FileDecode (pairConfig pairDaq pairFirst pairInfo)

variable {n : ℕ} (cfg : WriterConfig) (binning : Binning)

def left (t : DecodeTap) : ℕ :=
  4 * t.queue.items.length +
    match t.pc with
    | .popping => 1
    | .asking _ => 4
    | .decoding _ _ => 3
    | .appending _ _ _ => 2
    | .returned => 0

theorem works_left {binning : Binning} {t t' : DecodeTap} (h : t.Works binning t') :
    left t' < left t := by
  cases h with
  | pop block q hpc hpop =>
    simp only [left, hpc, (BlockQueue.pop_some hpop).1, List.length_cons]
    omega
  | ask block hpc => simp [left, hpc]
  | decode block tapping r hpc => simp [left, hpc]
  | append batch tapping n hpc => simp [left, hpc]
  | leave hpc => simp [left, hpc]

/-- As long as its thread has not returned, a closed stage can take a step. -/
theorem closed_works {s : Tapped n} {i : Fin n} {t : DecodeTap} (htap : s.taps i = some t)
    (hsize : ∀ block ∈ inWorks t.pc ++ t.queue.items, block.length < 2 ^ 32)
    (hclosed : t.queue.closed = true) (hpc : t.pc ≠ .returned) :
    ∃ b t', threadOf b = some i ∧ s.step cfg binning b = some (s.setTap i t') ∧
      t.Works binning t' := by
  have hstep : ∀ {f : DecodeTap → Option DecodeTap} {t' : DecodeTap}, f t = some t' →
      s.tapStep i f = some (s.setTap i t') := by
    intro f t' ht'
    rw [tapStep, htap, Option.bind_some, ht']
    rfl
  cases hat : t.pc with
  | popping =>
    cases hitems : t.queue.items with
    | nil =>
      have hdrained : t.queue.drained = true := by
        rw [BlockQueue.drained, hclosed, hitems]
        rfl
      exact ⟨.leave i, { t with pc := .returned }, rfl, hstep (if_pos ⟨hat, hdrained⟩),
        .leave hat hitems hclosed⟩
    | cons block rest =>
      obtain ⟨⟨first, q⟩, hpop⟩ : ∃ p, t.queue.pop = some p := by
        cases hpop : t.queue.pop with
        | none =>
          rw [BlockQueue.pop_none hpop] at hitems
          cases hitems
        | some p => exact ⟨p, rfl⟩
      refine ⟨.pop i, { t with pc := .asking first, queue := q }, rfl, hstep ?_,
        .pop first q hat hpop⟩
      rw [DecodeTap.pop, if_pos hat, hpop]
      rfl
  | asking block =>
    refine ⟨.ask i, { t with pc := .decoding block t.hits.enabled }, rfl, hstep ?_,
      .ask block hat⟩
    rw [DecodeTap.ask, hat]
  | decoding block tapping =>
    have hblock : block.length < 2 ^ 32 := hsize block (by rw [hat]; exact List.mem_cons_self)
    have hdecode := DecoderRefinement.decode_ok t.decoder hblock
    refine ⟨.decode i, _, rfl, hstep ?_, .decode block tapping _ hat hdecode⟩
    rw [DecodeTap.decode, hat]
    simp only [hdecode]
  | appending batch tapping n =>
    refine ⟨.append i, _, rfl, hstep ?_, .append batch tapping n hat⟩
    rw [DecodeTap.append, hat]
  | returned => exact absurd hat hpc

/-- A closed stage comes to its end, by steps of its own thread. -/
theorem closed_returns {s : Tapped n} (h : Tidy s) {i : Fin n} {t : DecodeTap}
    (htap : s.taps i = some t) (hclosed : t.queue.closed = true) :
    ∃ bs t', bs.filterMap label = [] ∧ (∀ b ∈ bs, stageOf b = some i) ∧
      run (Tapped.step cfg binning) s bs = some (s.setTap i t') ∧ Tidy (s.setTap i t') ∧
      t'.pc = .returned ∧ t'.running = t.running := by
  induction hleft : left t using Nat.strong_induction_on generalizing s t with
  | _ k ih =>
    by_cases hpc : t.pc = .returned
    · have hsame : s.setTap i t = s := by
        rw [setTap, ← htap, Function.update_eq_self]
      exact ⟨[], t, rfl, nofun, by rw [hsame]; rfl, by rwa [hsame], hpc, rfl⟩
    · obtain ⟨b, u, hthread, hstep, hworks⟩ :=
        closed_works cfg binning htap (h.sizes i t htap) hclosed hpc
      obtain ⟨hrunning, hqueue⟩ := works_flags hworks
      have hless := works_left hworks
      have hu : Tidy (s.setTap i u) := h.works htap hworks
      obtain ⟨bs, t', hlabels, hbs, hrun, htidy, hreturned, hrunning'⟩ :=
        ih (left u) (by omega) hu (setTap_same s i u) (hqueue.trans hclosed) rfl
      have hagain : (s.setTap i u).setTap i t' = s.setTap i t' := by
        simp only [setTap, Function.update_idem]
      rw [hagain] at hrun htidy
      refine ⟨b :: bs, t', ?_, List.forall_mem_cons.mpr ⟨stageOf_thread hthread, hbs⟩, ?_, htidy,
        hreturned, hrunning'.trans hrunning⟩
      · rw [List.filterMap_cons_none (thread_hidden hthread), hlabels]
      · rw [run, hstep, Option.bind_some, hrun]

theorem blocked_false {s : Tapped n} {a : Action n}
    (hdispatch : ∀ i, waitsFor s.base a = some i → s.submitting i = none)
    (hstage : ∀ i t, waitsForTap s.base a = some i → s.taps i = some t → t.stopped = true) :
    s.blocked a = false := by
  refine Bool.or_eq_false_iff.mpr ⟨?_, ?_⟩
  · cases hwaits : waitsFor s.base a with
    | none => rfl
    | some i => rw [Option.any_some, hdispatch i hwaits, Option.isSome_none]
  · cases hwaits : waitsForTap s.base a with
    | none => rfl
    | some i =>
      rw [Option.any_some]
      cases htap : s.taps i with
      | none => rfl
      | some t => rw [Option.any_some, hstage i t hwaits htap, Bool.not_true]

theorem submit_first {s : Tapped n} (h : Tidy s) {a : Action n} {base : Readout n}
    (hstep : s.base.step cfg a = some base) {i : Fin n} (hi : waitsFor s.base a = some i) :
    ∃ bs t, bs.filterMap label = [] ∧ (∀ b ∈ bs, stageOf b = none) ∧
      run (Tapped.step cfg binning) s bs = some t ∧ t.base = s.base ∧ t.submitting i = none ∧
      Tidy t := by
  cases hblock : s.submitting i with
  | none => exact ⟨[], s, rfl, nofun, rfl, rfl, hblock, h⟩
  | some block =>
    obtain ⟨t, htap⟩ := Option.isSome_iff_exists.mp (h.pending i block hblock).1
    have hpc : (s.base.readers i).pc = .checking := by
      cases step_takes hstep with
      | check j hpc =>
        cases hi
        exact hpc
      | drainMore j reads late hpc hchecking =>
        rw [waitsFor_draining hpc] at hi
        cases hi
        exact hchecking
      | drainDone j reads late hpc hchecking =>
        rw [waitsFor_draining hpc] at hi
        cases hi
        exact hchecking
      | _ => cases hi
    have hsubmit : Tapped.step cfg binning s (.submit i) =
        some { s.setTap i (t.submit block) with
          submitting := Function.update s.submitting i none } := by
      simp only [Tapped.step, Tapped.submit, hblock, htap, hpc, if_true]
      rfl
    refine ⟨[.submit i], { s.setTap i (t.submit block) with
      submitting := Function.update s.submitting i none }, rfl, List.forall_mem_singleton.mpr rfl,
      ?_, rfl, Function.update_self _ _ _, hidden_tidy h rfl hsubmit⟩
    rw [run, hsubmit, Option.bind_some, run]

theorem close_first {s : Tapped n} (h : Tidy s) {i : Fin n} {reads : ℕ}
    (hdraining : s.base.stopPc = .draining i reads)
    (hreturned : (s.base.readers i).pc = .returned) :
    ∃ bs u, bs.filterMap label = [] ∧ (∀ b ∈ bs, stageOf b = some i) ∧
      run (Tapped.step cfg binning) s bs = some u ∧ u.base = s.base ∧
      (∀ t, u.taps i = some t → t.stopped = true) ∧ Tidy u := by
  have hends : ∀ {s : Tapped n} {t : DecodeTap}, Tidy s → s.taps i = some t → t.running = false →
      ∃ bs u, bs.filterMap label = [] ∧ (∀ b ∈ bs, stageOf b = some i) ∧
        run (Tapped.step cfg binning) s bs = some u ∧ u.base = s.base ∧
        (∀ t, u.taps i = some t → t.stopped = true) ∧ Tidy u := by
    intro s t h htap hrunning
    obtain ⟨bs, t', hlabels, hbs, hrun, htidy, hpc, hrunning'⟩ :=
      closed_returns cfg binning h htap (h.stopped i t htap hrunning)
    refine ⟨bs, s.setTap i t', hlabels, hbs, hrun, rfl, fun u hu => ?_, htidy⟩
    rw [setTap_same] at hu
    cases hu
    rw [DecodeTap.stopped, hrunning', hrunning, hpc]
    rfl
  cases htap : s.taps i with
  | none => exact ⟨[], s, rfl, nofun, rfl, rfl, fun t ht => (nomatch htap.symm.trans ht), h⟩
  | some t =>
    cases hrunning : t.running with
    | false => exact hends h htap hrunning
    | true =>
      have hclose : Tapped.step cfg binning s (.close i) =
          some (s.setTap i { t with running := false, queue := t.queue.close }) := by
        have hready : s.base.isDraining i = true ∧ (s.base.readers i).pc = .returned := by
          refine ⟨?_, hreturned⟩
          simp only [isDraining, hdraining, decide_true]
        rw [Tapped.step, Tapped.close, if_pos hready, tapStep, htap, Option.bind_some,
          DecodeTap.close, if_pos hrunning]
        rfl
      obtain ⟨bs, u, hlabels, hbs, hrun, hbase, hstopped, htidy⟩ :=
        hends (hidden_tidy h rfl hclose) (setTap_same s i _) rfl
      refine ⟨.close i :: bs, u, hlabels, List.forall_mem_cons.mpr ⟨rfl, hbs⟩, ?_, hbase, hstopped,
        htidy⟩
      rw [run, hclose, Option.bind_some, hrun]

variable {cfg binning}

/-- The stages can always make way, and only the end of a board's stop needs steps of a
stage, which is the one of that board. -/
theorem makes_way {s : Tapped n} (h : Tidy s) {a : Action n} (ha : Fits a) {base : Readout n}
    (hstep : s.base.step cfg a = some base) :
    ∃ bs t, bs.filterMap label = [a] ∧
      (∀ b ∈ bs, ∀ i, stageOf b = some i → waitsForTap s.base a = some i) ∧
      run (Tapped.step cfg binning) s bs = some t ∧ t.base = base ∧ Tidy t := by
  have hgo : ∀ {u : Tapped n} (bs : List (TapAction n)), bs.filterMap label = [] →
      (∀ b ∈ bs, ∀ i, stageOf b = some i → waitsForTap s.base a = some i) →
      run (Tapped.step cfg binning) s bs = some u → u.base = s.base → Tidy u →
      u.blocked a = false →
      ∃ bs t, bs.filterMap label = [a] ∧
        (∀ b ∈ bs, ∀ i, stageOf b = some i → waitsForTap s.base a = some i) ∧
        run (Tapped.step cfg binning) s bs = some t ∧ t.base = base ∧ Tidy t := by
    intro u bs hlabels hbs hrun hbase htidy hfree
    have hnext : Tapped.step cfg binning u (.base a) =
        some { u with base := base, submitting := u.received a } := by
      rw [Tapped.step, baseStep, if_neg (by simp [hfree]), hbase, hstep]
      rfl
    refine ⟨bs ++ [.base a], _, ?_, ?_, (Layered.run_append hrun).trans ?_, rfl,
      step_tidy htidy (fun b hb => by cases hb; exact ha) hnext⟩
    · rw [List.filterMap_append, hlabels]
      rfl
    · exact List.forall_mem_append.mpr ⟨hbs, List.forall_mem_singleton.mpr fun i hi => by cases hi⟩
    · rw [run, hnext, Option.bind_some, run]
  cases hwaits : waitsFor s.base a with
  | some i =>
    have hstage : waitsForTap s.base a = none := by
      cases a with
      | release => cases hwaits
      | _ => rfl
    obtain ⟨bs, u, hlabels, hbs, hrun, hbase, hnone, htidy⟩ :=
      submit_first cfg binning h hstep hwaits
    refine hgo bs hlabels (fun b hb j hj => ?_) hrun hbase htidy
      (blocked_false (fun j hj => ?_) fun j t hj => ?_)
    · cases (hbs b hb).symm.trans hj
    · rw [hbase, hwaits] at hj
      cases hj
      exact hnone
    · rw [hbase, hstage] at hj
      cases hj
  | none =>
    have hdispatch : ∀ {u : Tapped n}, u.base = s.base → ∀ i, waitsFor u.base a = some i →
        u.submitting i = none := by
      intro u hbase i hi
      rw [hbase, hwaits] at hi
      cases hi
    cases step_takes hstep with
    | release i reads hpc hreturned =>
      obtain ⟨bs, u, hlabels, hbs, hrun, hbase, hstopped, htidy⟩ :=
        close_first cfg binning h hpc hreturned
      refine hgo bs hlabels (fun b hb j hj => ?_) hrun hbase htidy
        (blocked_false (hdispatch hbase) fun j t hj => ?_)
      · cases (hbs b hb).symm.trans hj
        exact waitsForTap_draining hpc
      · rw [hbase, waitsForTap_draining hpc] at hj
        cases hj
        exact hstopped t
    | _ =>
      exact hgo [] rfl (fun b hb => absurd hb List.not_mem_nil) rfl rfl h
        (blocked_false (hdispatch rfl) fun j t hj =>
          absurd hj (Option.some_ne_none j).symm)

theorem waitsForTap_release {s : Readout n} {a : Action n} {i : Fin n}
    (h : waitsForTap s a = some i) : a = .release := by
  cases a with
  | release => rfl
  | _ => cases h

theorem layer_yields : (layer (n := n) cfg binning).Yields Tidy Fits
    fun a b => ofStage b = true → a = .release := by
  intro s a base ha h hstep
  obtain ⟨bs, t, hlabels, hbs, hrun⟩ := @makes_way n cfg binning s h a ha base hstep
  refine ⟨bs, t, hlabels, fun b hb hstage => ?_, hrun⟩
  obtain ⟨i, hi⟩ := Option.isSome_iff_exists.mp hstage
  exact waitsForTap_release (hbs b hb i hi)

theorem run_tidy {s s' : Tapped n} (h : Tidy s) {bs : List (TapAction n)}
    (hbs : ∀ b ∈ bs, ∀ a, label b = some a → Fits a)
    (hrun : run (Tapped.step cfg binning) s bs = some s') : Tidy s' :=
  run_invariant (fun _ _ b hb htidy hstep => step_tidy htidy (hbs b hb) hstep) h hrun

/-- With decode stages on any of its boards the readout does what it does without them, and
at any moment all that it could do next without them: the readers never wait for a stage,
and only the end of a board's stop takes steps of a stage, which is that board's. -/
theorem taps_transparent (d : Daq) (stages : Fin d.runners.length → Option DecodeStage)
    {before : List (TapAction d.runners.length)} {t : Tapped d.runners.length}
    (hbefore : ∀ b ∈ before, ∀ a, label b = some a → Fits a)
    (hrun : run (Tapped.step cfg binning) (.ofDaq d stages) before = some t) :
    run (Readout.step cfg) (.ofDaq d) (before.filterMap label) = some t.base ∧
      (∀ schedule : List (Action d.runners.length), (∀ a ∈ schedule, Fits a) → ∀ s,
        run (Readout.step cfg) t.base schedule = some s ↔
          ∃ bs u, bs.filterMap label = schedule ∧
            (.release ∉ schedule → ∀ b ∈ bs, ofStage b = false) ∧
            run (Tapped.step cfg binning) t bs = some u ∧ u.base = s) ∧
      ∀ a s, Fits a → t.base.step cfg a = some s →
        ∃ bs u, bs.filterMap label = [a] ∧
          (∀ b ∈ bs, ∀ i, stageOf b = some i → waitsForTap t.base a = some i) ∧
          run (Tapped.step cfg binning) t bs = some u ∧ u.base = s := by
  have htidy := run_tidy (ofDaq_tidy d stages) hbefore hrun
  refine ⟨(layer cfg binning).run_shown hrun, fun schedule hfits s => ⟨fun h => ?_, ?_⟩,
    fun a s ha hstep => ?_⟩
  · obtain ⟨bs, u, hlabels, hbs, hrun', hbase, _⟩ :=
      (layer cfg binning).run_lifted layer_yields htidy hfits h
    refine ⟨bs, u, hlabels, fun hno b hb => ?_, hrun', hbase⟩
    obtain ⟨a, ha, hneeds⟩ := hbs b hb
    exact eq_false_of_ne_true fun hstage => hno (hneeds hstage ▸ ha)
  · rintro ⟨bs, u, rfl, _, hrun', rfl⟩
    exact (layer cfg binning).run_shown hrun'
  · obtain ⟨bs, u, hlabels, hbs, hrun', hbase, _⟩ := makes_way htidy ha hstep
    exact ⟨bs, u, hlabels, hbs, hrun', hbase⟩

/-- A stage for the first of the two boards, with room for one block. -/
def pairStage : Staging := { info := pairInfo 0, decodeQueueCapacity := 1 }

def pairStagings (i : Fin pairDaq.runners.length) : Option Staging :=
  if i.val = 0 then some pairStage else none

def pairStages (i : Fin pairDaq.runners.length) : Option DecodeStage :=
  (pairStagings i).map .construct

/-- The stage has a block in its hands when the next two come, of which it can take one; then
its board is stopped. -/
theorem taps_transparent_pair :
    let a := pairFirst
    let block := BoardStream.payload [BoardStream.hit 1]
    let before : List (TapAction pairDaq.runners.length) :=
      [.base (.check a), .base (.read a (some block)), .base (.push a false), .base (.count a),
        .submit a, .pop a, .ask a]
    let schedule : List (Action pairDaq.runners.length) :=
      [.check a, .read a (some block), .push a false, .count a, .check a, .read a (some block),
        .push a false, .count a, .stop, .stopBoard, .check a, .join, .drainCheck true, .release]
    ∃ t s, run (Tapped.step pairConfig flatBinning)
        (.ofDaq pairDaq pairStages) before = some t ∧
      run (Readout.step pairConfig) (.ofDaq pairDaq) (before.filterMap label) =
        some t.base ∧
      ∃ bs u, bs.filterMap label = schedule ∧
        run (Tapped.step pairConfig flatBinning) t bs = some u ∧ u.base = s ∧
        s.stopPc = .stopping 1 := by
  intro a block before schedule
  have hmap : (run (Tapped.step pairConfig flatBinning)
      (.ofDaq pairDaq pairStages) before).bind (fun t =>
        (run (Readout.step pairConfig) t.base schedule).map Readout.stopPc) =
      some (.stopping 1) := by decide +kernel
  obtain ⟨t, ht, hmap⟩ := Option.bind_eq_some_iff.mp hmap
  obtain ⟨s, hs, hstop⟩ := Option.map_eq_some_iff.mp hmap
  have hbefore : ∀ b ∈ before, ∀ c, label b = some c → Fits c := fits_labels (by decide +kernel)
  obtain ⟨hshown, hall, _⟩ := taps_transparent pairDaq pairStages hbefore ht
  have hschedule : ∀ c ∈ schedule, Fits c := by decide +kernel
  obtain ⟨bs, u, hlabels, _, hrun, hbase⟩ := (hall schedule hschedule s).mp hs
  exact ⟨t, s, ht, hshown, bs, u, hlabels, hrun, hbase, hstop⟩

end Tapped
end CaenDaq
