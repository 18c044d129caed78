import CaenDaq.DecodeTap

/-!
# What a step of a tapped readout can do

The steps by cases, the stages as a layer over the readout, and what all steps keep: a block
on its way to a stage is for a stage that is there.
-/

namespace CaenDaq

open OnlineSpectra

namespace DecodeTap

variable {binning : Binning}

inductive Works (binning : Binning) (t : DecodeTap) : DecodeTap → Prop
  | pop (block : RawBlock) (q : BlockQueue RawBlock) (pc : t.pc = .popping)
    (answer : t.queue.pop = some (block, q)) :
    Works binning t { t with pc := .asking block, queue := q }
  | ask (block : RawBlock) (pc : t.pc = .asking block) :
    Works binning t { t with pc := .decoding block t.hits.enabled }
  | decode (block : RawBlock) (tapping : Bool) (r : AggregateDecoder.Decoded)
    (pc : t.pc = .decoding block tapping)
    (answer : AggregateDecoder.decode t.decoder block = .ok r) :
    Works binning t { t with
      pc := .appending (HitTap.batchOf r.events) tapping r.count
      decoder := r.decoder
      store := r.events.foldl (HistogramStore.fill binning) t.store
      decoded := t.decoded ++ [block] }
  | append (batch : List Hit) (tapping : Bool) (n : ℕ) (pc : t.pc = .appending batch tapping n) :
    Works binning t { t with
      pc := .popping
      hits := if tapping then t.hits.append batch else t.hits
      events := t.events + n
      calls := if tapping then t.calls ++ [.append batch] else t.calls }
  | leave (pc : t.pc = .popping) (items : t.queue.items = []) (closed : t.queue.closed = true) :
    Works binning t { t with pc := .returned }

theorem works_busy {binning : Binning} {t t' : DecodeTap} (h : t.Works binning t') :
    t.pc ≠ .returned := by
  intro hpc
  cases h with
  | pop block q hat => cases hat.symm.trans hpc
  | ask block hat => cases hat.symm.trans hpc
  | decode block tapping r hat => cases hat.symm.trans hpc
  | append batch tapping m hat => cases hat.symm.trans hpc
  | leave hat => cases hat.symm.trans hpc

end DecodeTap

namespace Tapped

open Readout Transition

variable {n : ℕ} {cfg : WriterConfig} {binning : Binning}

def setTap (i : Fin n) (t : DecodeTap) (s : Tapped n) : Tapped n :=
  { s with taps := Function.update s.taps i (some t) }

/-- An action of the readout is one of the tapped readout. -/
def label : TapAction n → Option (Action n)
  | .base a => some a
  | _ => none

def threadOf : TapAction n → Option (Fin n)
  | .pop i | .ask i | .decode i | .append i | .leave i => some i
  | _ => none

theorem thread_hidden {b : TapAction n} {i : Fin n} (h : threadOf b = some i) : label b = none := by
  cases b with
  | base => cases h
  | _ => rfl

/-- The stage at which a step is taken: by its thread, its stop or the owner of the hits. -/
def stageOf : TapAction n → Option (Fin n)
  | .base _ | .submit _ => none
  | .pop i | .ask i | .decode i | .append i | .leave i | .close i | .call i _ => some i

def ofStage (b : TapAction n) : Bool := (stageOf b).isSome

theorem stageOf_thread {b : TapAction n} {i : Fin n} (h : threadOf b = some i) :
    stageOf b = some i := by
  cases b with
  | base => cases h
  | submit => cases h
  | close => cases h
  | call => cases h
  | _ => exact h

inductive Happens (cfg : WriterConfig) (binning : Binning) (s : Tapped n) :
    TapAction n → Tapped n → Prop
  | base (a : Action n) (base : Readout n) (free : s.blocked a = false)
    (step : s.base.step cfg a = some base) :
    Happens cfg binning s (.base a) { s with base := base, submitting := s.received a }
  | submit (i : Fin n) (block : RawBlock) (t : DecodeTap) (submitting : s.submitting i = some block)
    (tap : s.taps i = some t) (pc : (s.base.readers i).pc = .checking) :
    Happens cfg binning s (.submit i)
      { s.setTap i (t.submit block) with submitting := Function.update s.submitting i none }
  | works (b : TapAction n) (i : Fin n) (t t' : DecodeTap) (thread : threadOf b = some i)
    (tap : s.taps i = some t) (works : t.Works binning t') :
    Happens cfg binning s b (s.setTap i t')
  | call (i : Fin n) (c : TapCall) (t : DecodeTap) (outside : ∀ batch, c ≠ .append batch)
    (tap : s.taps i = some t) : Happens cfg binning s (.call i c)
      (s.setTap i { t with hits := (HitTap.step t.hits c).2, calls := t.calls ++ [c] })
  | close (i : Fin n) (t : DecodeTap) (draining : s.base.isDraining i = true)
    (returned : (s.base.readers i).pc = .returned) (tap : s.taps i = some t)
    (running : t.running = true) :
    Happens cfg binning s (.close i)
      (s.setTap i { t with running := false, queue := t.queue.close })

theorem tapStep_some {i : Fin n} {f : DecodeTap → Option DecodeTap} {s s' : Tapped n}
    (h : s.tapStep i f = some s') :
    ∃ t t', s.taps i = some t ∧ f t = some t' ∧ s' = s.setTap i t' := by
  obtain ⟨t, htap, hmap⟩ := Option.bind_eq_some_iff.mp h
  obtain ⟨t', ht', rfl⟩ := Option.map_eq_some_iff.mp hmap
  exact ⟨t, t', htap, ht', rfl⟩

theorem decode_works {t t' : DecodeTap} (h : t.decode binning = some t') : t.Works binning t' := by
  unfold DecodeTap.decode at h
  split at h
  · next block tapping hpc =>
    split at h
    · next r hr =>
      cases h
      exact .decode block tapping r hpc hr
    · cases h
  · cases h

theorem step_happens {s s' : Tapped n} {b : TapAction n} (h : s.step cfg binning b = some s') :
    Happens cfg binning s b s' := by
  have hworks : ∀ {b : TapAction n} {i : Fin n} {f : DecodeTap → Option DecodeTap},
      threadOf b = some i → s.tapStep i f = some s' →
      (∀ t t', f t = some t' → t.Works binning t') → Happens cfg binning s b s' := by
    intro b i f hthread hstep hf
    obtain ⟨t, t', htap, ht', rfl⟩ := tapStep_some hstep
    exact .works b i t t' hthread htap (hf t t' ht')
  cases b with
  | base a =>
    simp only [step, baseStep] at h
    split at h
    · cases h
    · next hfree =>
      obtain ⟨base, hbase, rfl⟩ := Option.map_eq_some_iff.mp h
      exact .base a base (eq_false_of_ne_true hfree) hbase
  | submit i =>
    simp only [step, submit] at h
    split at h
    · next block t hblock htap =>
      split at h
      · next hpc =>
        cases h
        exact .submit i block t hblock htap hpc
      · cases h
    · cases h
  | pop i =>
    refine hworks rfl h fun t t' ht => ?_
    unfold DecodeTap.pop at ht
    split at ht
    · next hpc =>
      obtain ⟨⟨block, q⟩, hpop, rfl⟩ := Option.map_eq_some_iff.mp ht
      exact .pop block q hpc hpop
    · cases ht
  | ask i =>
    refine hworks rfl h fun t t' ht => ?_
    unfold DecodeTap.ask at ht
    split at ht
    · next block hpc =>
      cases ht
      exact .ask block hpc
    · cases ht
  | decode i => exact hworks rfl h fun t t' => decode_works
  | append i =>
    refine hworks rfl h fun t t' ht => ?_
    unfold DecodeTap.append at ht
    split at ht
    · next batch tapping n hpc =>
      cases ht
      exact .append batch tapping n hpc
    · cases ht
  | leave i =>
    refine hworks rfl h fun t t' ht => ?_
    unfold DecodeTap.leave at ht
    split at ht
    · next hready =>
      cases ht
      obtain ⟨hpc, hdrained⟩ := hready
      simp only [BlockQueue.drained, Bool.and_eq_true, List.isEmpty_iff] at hdrained
      exact .leave hpc hdrained.2 hdrained.1
    · cases ht
  | close i =>
    simp only [step, close] at h
    split at h
    · next hready =>
      obtain ⟨t, t', htap, ht', rfl⟩ := tapStep_some h
      unfold DecodeTap.close at ht'
      split at ht'
      · next hrunning =>
        cases ht'
        exact .close i t hready.1 hready.2 htap hrunning
      · cases ht'
    · cases h
  | call i c =>
    obtain ⟨t, t', htap, ht, rfl⟩ := tapStep_some h
    unfold DecodeTap.call at ht
    split at ht
    · cases ht
    · next hno =>
      cases ht
      exact .call i c t (fun batch heq => hno batch heq) htap

def layer (cfg : WriterConfig) (binning : Binning) :
    Layered.Over (Readout.step (n := n) cfg) (Tapped.step (n := n) cfg binning) where
  shown := Tapped.base
  label := label
  visible := by
    intro s s' b a hlabel hstep
    cases step_happens hstep with
    | base a' base hfree hbase =>
      cases hlabel
      exact hbase
    | submit => cases hlabel
    | works b i t t' hthread => cases (thread_hidden hthread).symm.trans hlabel
    | call => cases hlabel
    | close => cases hlabel
  hidden := by
    intro s s' b hlabel hstep
    cases step_happens hstep with
    | base => cases hlabel
    | submit => rfl
    | works => rfl
    | call => rfl
    | close => rfl

/-- The reader is between a read and the end of its `dispatch`, or where that leaves it. -/
def Dispatching : ReaderPc → Prop
  | .checking | .pushing _ | .counting _ _ => True
  | _ => False

theorem waitsFor_draining {s : Readout n} {i : Fin n} {reads : ℕ} (h : s.stopPc = .draining i reads)
    (late : Bool) : waitsFor s (.drainCheck late) = some i := by
  simp only [waitsFor, h, Fin.is_lt, dif_pos]

theorem waitsForTap_draining {s : Readout n} {i : Fin n} {reads : ℕ}
    (h : s.stopPc = .draining i reads) : waitsForTap s .release = some i := by
  simp only [waitsForTap, h, Fin.is_lt, dif_pos]

theorem base_dispatching {s s' : Readout n} {a : Action n} (h : s.step cfg a = some s') {i : Fin n}
    (hi : Dispatching (s.readers i).pc) (hfree : waitsFor s a ≠ some i) :
    Dispatching (s'.readers i).pc := by
  have hset : ∀ {j : Fin n} {r : Reader}, (i = j → Dispatching r.pc) →
      Dispatching ((s.setReader j r).readers i).pc := by
    intro j r hr
    rw [readers_setReader]
    split
    · next heq => exact hr heq
    · exact hi
  cases step_takes h with
  | check j hpc =>
    refine hset fun heq => absurd (congrArg some heq.symm) ?_
    exact hfree
  | read j answer hpc =>
    refine hset fun heq => ?_
    rw [heq, hpc] at hi
    exact hi.elim
  | waited => exact hi
  | pushed => exact hset fun _ => trivial
  | count j block accepted =>
    refine hset fun _ => ?_
    rw [(count_kept block accepted _).2.2]
    trivial
  | stopBoard j => exact hset fun heq => heq ▸ hi
  | join j _ hpc =>
    refine hset fun heq => ?_
    rw [heq, hpc] at hi
    exact hi.elim
  | drainMore j reads late hpc =>
    refine hset fun heq => absurd ?_ hfree
    rw [heq]
    exact waitsFor_draining hpc late
  | drainDone j reads late hpc =>
    refine hset fun heq => absurd ?_ hfree
    rw [heq]
    exact waitsFor_draining hpc late
  | pop => exact hi
  | write => exact hi
  | idle => exact hi
  | writerReturn => exact hi
  | stop => exact hi
  | skipBoard => exact hi
  | closeQueue => exact hi
  | release => exact hi
  | joinWriter => exact hi

def inWorks : TapPc → List RawBlock
  | .asking block | .decoding block _ => [block]
  | _ => []

/-- All that is on its way to a stage is for a stage that is there, and of a length that the
library gives. -/
structure Tidy (s : Tapped n) : Prop where
  pending : ∀ i block, s.submitting i = some block →
    (s.taps i).isSome ∧ Dispatching (s.base.readers i).pc ∧ block.length < 2 ^ 32
  sizes : ∀ i t, s.taps i = some t → ∀ block ∈ inWorks t.pc ++ t.queue.items, block.length < 2 ^ 32
  stopped : ∀ i t, s.taps i = some t → t.running = false → t.queue.closed = true

theorem setTap_same (s : Tapped n) (i : Fin n) (t : DecodeTap) : (s.setTap i t).taps i = some t :=
  Function.update_self _ _ _

theorem setTap_other (s : Tapped n) {i j : Fin n} (t : DecodeTap) (h : j ≠ i) :
    (s.setTap i t).taps j = s.taps j :=
  Function.update_of_ne h _ _

theorem Tidy.setTap {s : Tapped n} (h : Tidy s) {i : Fin n} (t : DecodeTap)
    (ht : ∀ block ∈ inWorks t.pc ++ t.queue.items, block.length < 2 ^ 32)
    (hstopped : t.running = false → t.queue.closed = true) : Tidy (s.setTap i t) := by
  refine ⟨fun j block hblock => ?_, fun j u hu => ?_, fun j u hu => ?_⟩
  · obtain ⟨htap, hrest⟩ := h.pending j block hblock
    refine ⟨?_, hrest⟩
    by_cases hj : j = i
    · rw [hj, setTap_same]
      rfl
    · rwa [setTap_other s t hj]
  · by_cases hj : j = i
    · rw [hj, setTap_same] at hu
      cases hu
      exact ht
    · rw [setTap_other s t hj] at hu
      exact h.sizes j u hu
  · by_cases hj : j = i
    · rw [hj, setTap_same] at hu
      cases hu
      exact hstopped
    · rw [setTap_other s t hj] at hu
      exact h.stopped j u hu

theorem works_sizes {t t' : DecodeTap} (h : t.Works binning t')
    (ht : ∀ block ∈ inWorks t.pc ++ t.queue.items, block.length < 2 ^ 32) :
    ∀ block ∈ inWorks t'.pc ++ t'.queue.items, block.length < 2 ^ 32 := by
  cases h with
  | pop block q hpc hpop =>
    rw [hpc, (BlockQueue.pop_some hpop).1] at ht
    exact ht
  | ask block hpc =>
    rw [hpc] at ht
    exact ht
  | decode block tapping r hpc =>
    rw [hpc] at ht
    exact fun b hb => ht b (List.mem_append_right _ hb)
  | append batch tapping n hpc =>
    rw [hpc] at ht
    exact ht
  | leave hpc =>
    rw [hpc] at ht
    exact ht

theorem works_flags {t t' : DecodeTap} (h : t.Works binning t') :
    t'.running = t.running ∧ t'.queue.closed = t.queue.closed := by
  cases h with
  | pop block q hpc hpop => exact ⟨rfl, (BlockQueue.pop_some hpop).2⟩
  | ask => exact ⟨rfl, rfl⟩
  | decode => exact ⟨rfl, rfl⟩
  | append => exact ⟨rfl, rfl⟩
  | leave => exact ⟨rfl, rfl⟩

theorem Tidy.works {s : Tapped n} (h : Tidy s) {i : Fin n} {t t' : DecodeTap}
    (htap : s.taps i = some t) (hworks : t.Works binning t') : Tidy (s.setTap i t') := by
  obtain ⟨hrunning, hclosed⟩ := works_flags hworks
  refine h.setTap t' (works_sizes hworks (h.sizes i t htap)) fun hstopped => ?_
  rw [hclosed]
  exact h.stopped i t htap (hrunning.symm.trans hstopped)

/-- The reads bring no block that is too long. -/
def Fits : Action n → Prop
  | .read _ (some block) => block.length < 2 ^ 32
  | _ => True

instance fits_decidable : DecidablePred (Fits (n := n))
  | .read _ (some block) => inferInstanceAs (Decidable (block.length < 2 ^ 32))
  | .read _ none | .check _ | .push _ _ | .count _ | .pop | .write _ | .idle _ | .writerReturn
  | .stop | .stopBoard | .join | .drainCheck _ | .release | .joinWriter _ _ => .isTrue trivial

theorem fits_labels {bs : List (TapAction n)} (h : ∀ a ∈ bs.filterMap label, Fits a) :
    ∀ b ∈ bs, ∀ a, label b = some a → Fits a :=
  fun b hb a ha => h a (List.mem_filterMap.mpr ⟨b, hb, ha⟩)

theorem submit_closed (t : DecodeTap) (block : RawBlock) :
    (t.submit block).queue.closed = t.queue.closed :=
  (BlockQueue.push_cases List.length true block t.queue).1

theorem submit_items (t : DecodeTap) (block : RawBlock) :
    ∀ b ∈ (t.submit block).queue.items, b ∈ t.queue.items ∨ b = block := by
  intro b hb
  rcases (BlockQueue.push_cases List.length true block t.queue).2 with ⟨_, _, hitems⟩ | ⟨_, hitems⟩
  · rw [DecodeTap.submit, hitems] at hb
    exact (List.mem_append.mp hb).imp_right List.mem_singleton.mp
  · rw [DecodeTap.submit, hitems] at hb
    exact .inl hb

theorem blocked_waitsFor {s : Tapped n} {a : Action n} (h : s.blocked a = false) {i : Fin n}
    (hi : waitsFor s.base a = some i) : s.submitting i = none := by
  simp only [blocked, hi, Bool.or_eq_false_iff, Option.any_some] at h
  exact Option.not_isSome_iff_eq_none.mp (by simp [h.1])

theorem read_dispatches {s s' : Readout n} {i : Fin n} {block : RawBlock}
    (h : s.step cfg (.read i (some block)) = some s') (hfilled : block ≠ []) :
    s'.readers i = (s.readers i).dispatch block := by
  cases step_takes h with
  | read _ _ hpc =>
    rw [readers_setReader, if_pos rfl]
    rcases read_either (s.isDraining i) (some block) (s.readers i) with hr | hr
    · rw [hr]
      simp [Reader.readLoop, hfilled]
    · rw [hr]
      simp [Reader.readDrain, hfilled]

theorem base_tidy {s : Tapped n} (h : Tidy s) {a : Action n} (ha : Fits a) {base : Readout n}
    (hfree : s.blocked a = false) (hstep : s.base.step cfg a = some base) :
    Tidy { s with base := base, submitting := s.received a } := by
  refine ⟨fun i block hblock => ?_, h.sizes, h.stopped⟩
  have hold : s.submitting i = some block →
      (s.taps i).isSome ∧ Dispatching (base.readers i).pc ∧ block.length < 2 ^ 32 := by
    intro hblock
    obtain ⟨htap, hpc, hsize⟩ := h.pending i block hblock
    refine ⟨htap, base_dispatching hstep hpc fun hwaits => ?_, hsize⟩
    rw [blocked_waitsFor hfree hwaits] at hblock
    cases hblock
  cases a with
  | read j answer =>
    cases answer with
    | none => exact hold hblock
    | some new =>
      change (if new ≠ [] ∧ (s.taps j).isSome then Function.update s.submitting j (some new)
        else s.submitting) i = some block at hblock
      split at hblock
      · next hnew =>
        by_cases hj : i = j
        · subst hj
          rw [Function.update_self] at hblock
          cases hblock
          refine ⟨hnew.2, ?_, ha⟩
          rw [read_dispatches hstep hnew.1]
          show Dispatching (if (s.base.readers i).write then .pushing block else .checking)
          split <;> trivial
        · rw [Function.update_of_ne hj] at hblock
          exact hold hblock
      · exact hold hblock
  | _ => exact hold hblock

theorem step_tidy {s s' : Tapped n} {b : TapAction n} (h : Tidy s)
    (hb : ∀ a, label b = some a → Fits a) (hstep : s.step cfg binning b = some s') : Tidy s' := by
  cases step_happens hstep with
  | base a base hfree hbase => exact base_tidy h (hb a rfl) hfree hbase
  | submit i block t hblock htap hpc =>
    obtain ⟨_, _, hsize⟩ := h.pending i block hblock
    have hsizes : ∀ b ∈ inWorks (t.submit block).pc ++ (t.submit block).queue.items,
        b.length < 2 ^ 32 := by
      intro b hb
      rcases List.mem_append.mp hb with hb | hb
      · exact h.sizes i t htap b (List.mem_append_left _ hb)
      · rcases submit_items t block b hb with hold | rfl
        · exact h.sizes i t htap b (List.mem_append_right _ hold)
        · exact hsize
    obtain ⟨hpending, hsizes, hstopped⟩ := h.setTap (t.submit block) (i := i) hsizes fun hstopped =>
      (submit_closed t block).trans (h.stopped i t htap hstopped)
    refine ⟨fun j other hother => ?_, hsizes, hstopped⟩
    change Function.update s.submitting i none j = some other at hother
    by_cases hj : j = i
    · rw [hj, Function.update_self] at hother
      cases hother
    · rw [Function.update_of_ne hj] at hother
      exact hpending j other hother
  | works b i t t' hthread htap hworks => exact h.works htap hworks
  | call i c t houtside htap => exact h.setTap _ (h.sizes i t htap) (h.stopped i t htap)
  | close i t hdraining hreturned htap =>
    exact h.setTap _ (h.sizes i t htap) fun _ => rfl

theorem hidden_tidy {s s' : Tapped n} {b : TapAction n} (h : Tidy s) (hb : label b = none)
    (hstep : s.step cfg binning b = some s') : Tidy s' :=
  step_tidy h (fun _ ha => nomatch hb.symm.trans ha) hstep

theorem ofDaq_tidy (d : Daq) (stages : Fin d.runners.length → Option DecodeStage) :
    Tidy (.ofDaq d stages) := by
  refine ⟨nofun, fun i t ht => ?_, fun i t ht hrunning => ?_⟩
  · obtain ⟨stage, _, rfl⟩ := Option.map_eq_some_iff.mp ht
    rw [stage.start_eq]
    exact stage.sizes
  · obtain ⟨stage, _, rfl⟩ := Option.map_eq_some_iff.mp ht
    rw [stage.start_eq] at hrunning
    cases hrunning

end Tapped
end CaenDaq
