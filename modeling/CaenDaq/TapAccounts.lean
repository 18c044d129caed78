import CaenDaq.StopOrder
import CaenDaq.TapTransparency

/-!
# What becomes of the blocks of a decode stage

Each block that the reader of a board hands over is in the queue of the stage, in the hands
of its thread, decoded, or refused and counted. The store and the counter are at every moment
those of the blocks decoded, and once the run is over none is left on the way.
-/

namespace CaenDaq
namespace Tapped

open Readout Transition Delivery StopOrder OnlineSpectra AggregateDecoder
open FileDecode (pair pairConfig pairDaq pairFirst pairSecond)

variable {n : ℕ} {cfg : WriterConfig} {binning : Binning}

theorem decodeBlocks_snoc {d : AggregateDecoder} {blocks : List RawBlock} {r q : Decoded}
    {block : RawBlock} (hblocks : BoardStream.decodeBlocks d blocks = .ok r)
    (hblock : decode r.decoder block = .ok q) :
    BoardStream.decodeBlocks d (blocks ++ [block]) =
      .ok ⟨r.events ++ q.events, r.count + q.count, q.decoder⟩ := by
  induction blocks generalizing d r with
  | nil =>
    cases hblocks
    simp [BoardStream.decodeBlocks, hblock, Checked.ok_bind, Checked.pure_eq_ok]
  | cons first rest ih =>
    rw [BoardStream.decodeBlocks] at hblocks
    cases hfirst : decode d first with
    | error =>
      rw [hfirst] at hblocks
      cases hblocks
    | ok u =>
      rw [hfirst, Checked.ok_bind] at hblocks
      cases hrest : BoardStream.decodeBlocks u.decoder rest with
      | error =>
        rw [hrest] at hblocks
        cases hblocks
      | ok v =>
        rw [hrest] at hblocks
        cases hblocks
        rw [List.cons_append, BoardStream.decodeBlocks, hfirst, Checked.ok_bind, ih hrest hblock,
          Checked.ok_bind, List.append_assoc, Nat.add_assoc]
        rfl

def appended (calls : List TapCall) : List Hit :=
  calls.flatMap fun
    | .append batch => batch
    | _ => []

def unappended : TapPc → List Hit
  | .appending batch true _ => batch
  | _ => []

def unadded : TapPc → ℕ
  | .appending _ _ n => n
  | _ => 0

/-- The stage has in its store, its counter and the hits what the blocks decoded give. -/
structure Filled (binning : Binning) (st : Staging) (t : DecodeTap) (r : Decoded) : Prop where
  decoded : BoardStream.decodeBlocks (registerBoardInfo {} st.info) t.decoded = .ok r
  decoder : t.decoder = r.decoder
  store : t.store = r.events.foldl (HistogramStore.fill binning) st.store
  events : t.events + unadded t.pc = r.count
  hits : (appended t.calls ++ unappended t.pc).Sublist
    (appended st.calls ++ HitTap.batchOf r.events)

/-- The books of a stage: what its queue took is decoded, in the hands of the thread or
waiting, and store, counter and hits are those of the blocks decoded. -/
structure Books (binning : Binning) (st : Staging) (t : DecodeTap) : Prop where
  taken : (t.fates.filter (·.2)).map (·.1) = t.decoded ++ inWorks t.pc ++ t.queue.items
  filled : ∃ r, Filled binning st t r
  hits : t.hits = (Transducer.run HitTap.step {} t.calls).2

/-- What became of the blocks that the reader of a board handed to its stage since the start,
which found the stage as `t₀`. -/
structure Handed (t₀ : DecodeTap) (fates : List (RawBlock × Bool)) (s : Tapped n) (i : Fin n)
    (t : DecodeTap) : Prop where
  later : t.fates = t₀.fates ++ fates
  blocks : (s.base.readers i).blocks = fates.map (·.1) ++ (s.submitting i).toList
  counted : t₀.queue.closed = false →
    t.queue.dropped = t₀.queue.dropped + (fates.filter (!·.2)).length
  refused : t₀.queue.closed = true →
    t.queue.closed = true ∧ t.queue.dropped = t₀.queue.dropped ∧ ∀ f ∈ fates, f.2 = false
  closed : t₀.queue.closed = false → t.queue.closed = true → Drained s.base i
  returned : t.pc = .returned → t.queue.items = [] ∧ t.queue.closed = true

theorem appended_snoc (calls : List TapCall) (c : TapCall) :
    appended (calls ++ [c]) = appended calls ++ appended [c] := List.flatMap_append

theorem works_filled {st : Staging} {t t' : DecodeTap} (h : t.Works binning t') {r : Decoded}
    (hfilled : Filled binning st t r) : ∃ r', Filled binning st t' r' := by
  obtain ⟨hdecoded, hdecoder, hstore, hevents, hhits⟩ := hfilled
  cases h with
  | pop block q hpc =>
    rw [hpc] at hevents hhits
    exact ⟨r, hdecoded, hdecoder, hstore, hevents, hhits⟩
  | ask block hpc =>
    rw [hpc] at hevents hhits
    exact ⟨r, hdecoded, hdecoder, hstore, hevents, hhits⟩
  | decode block tapping q hpc hq =>
    rw [hpc] at hevents hhits
    rw [hdecoder] at hq
    refine ⟨_, decodeBlocks_snoc hdecoded hq, rfl, ?_, ?_, ?_⟩
    · rw [hstore, List.foldl_append]
    · exact congrArg (· + q.count) hevents
    · show (appended t.calls ++
          unappended (.appending (HitTap.batchOf q.events) tapping q.count)).Sublist
        (appended st.calls ++ HitTap.batchOf (r.events ++ q.events))
      have hbatch : HitTap.batchOf (r.events ++ q.events) =
          HitTap.batchOf r.events ++ HitTap.batchOf q.events := by
        rw [HitTap.batchOf, List.filter_append, List.map_append]
        rfl
      rw [hbatch, ← List.append_assoc]
      refine List.Sublist.append (by simpa [unappended] using hhits) ?_
      cases tapping with
      | true => exact List.Sublist.refl _
      | false => exact List.nil_sublist _
  | append batch tapping m hpc =>
    rw [hpc] at hevents hhits
    refine ⟨r, hdecoded, hdecoder, hstore, hevents, ?_⟩
    cases tapping with
    | true =>
      show (appended (t.calls ++ [TapCall.append batch]) ++ []).Sublist _
      rw [appended_snoc, List.append_nil]
      simpa [appended, unappended] using hhits
    | false => exact hhits
  | leave hpc =>
    rw [hpc] at hevents hhits
    exact ⟨r, hdecoded, hdecoder, hstore, hevents, hhits⟩

theorem step_snoc (calls : List TapCall) (c : TapCall) :
    (HitTap.step (Transducer.run HitTap.step {} calls).2 c).2 =
      (Transducer.run HitTap.step {} (calls ++ [c])).2 := by
  rw [HitTap.run_snoc]

theorem works_books {st : Staging} {t t' : DecodeTap} (h : Books binning st t)
    (hworks : t.Works binning t') : Books binning st t' := by
  obtain ⟨htaken, ⟨r, hfilled⟩, hhits⟩ := h
  have hfilled' := works_filled hworks hfilled
  cases hworks with
  | pop block q hpc hpop =>
    refine ⟨?_, hfilled', hhits⟩
    rw [hpc, (BlockQueue.pop_some hpop).1] at htaken
    rw [htaken]
    simp [inWorks]
  | ask block hpc =>
    rw [hpc] at htaken
    exact ⟨htaken, hfilled', hhits⟩
  | decode block tapping q hpc =>
    rw [hpc] at htaken
    refine ⟨?_, hfilled', hhits⟩
    rw [htaken]
    simp [inWorks]
  | append batch tapping m hpc =>
    rw [hpc] at htaken
    refine ⟨htaken, hfilled', ?_⟩
    cases tapping with
    | true =>
      show t.hits.append batch = _
      rw [hhits]
      exact step_snoc t.calls (.append batch)
    | false => exact hhits
  | leave hpc =>
    rw [hpc] at htaken
    exact ⟨htaken, hfilled', hhits⟩

theorem works_handed {t₀ : DecodeTap} {fates : List (RawBlock × Bool)} {s : Tapped n} {i : Fin n}
    {t t' : DecodeTap} (h : Handed t₀ fates s i t) (hworks : t.Works binning t') :
    Handed t₀ fates (s.setTap i t') i t' := by
  obtain ⟨hfates, hblocks, hcounted, hrefused, hclosed, hreturned⟩ := h
  cases hworks with
  | pop block q hpc hpop =>
    have hqueue := (BlockQueue.pop_some hpop).2
    have hdropped : q.dropped = t.queue.dropped := (BlockQueue.pop_kept hpop).2.1
    refine ⟨hfates, hblocks, fun hopen => hdropped.trans (hcounted hopen), fun hshut => ?_,
      fun hopen hq => hclosed hopen (hqueue.symm.trans hq), nofun⟩
    obtain ⟨hstill, hsame, hnone⟩ := hrefused hshut
    exact ⟨hqueue.trans hstill, hdropped.trans hsame, hnone⟩
  | ask => exact ⟨hfates, hblocks, hcounted, hrefused, hclosed, nofun⟩
  | decode => exact ⟨hfates, hblocks, hcounted, hrefused, hclosed, nofun⟩
  | append => exact ⟨hfates, hblocks, hcounted, hrefused, hclosed, nofun⟩
  | leave hpc hitems hqueue =>
    exact ⟨hfates, hblocks, hcounted, hrefused, hclosed, fun _ => ⟨hitems, hqueue⟩⟩

theorem call_books {st : Staging} {t : DecodeTap} (h : Books binning st t) {c : TapCall}
    (hno : ∀ batch, c ≠ .append batch) :
    Books binning st { t with hits := (HitTap.step t.hits c).2, calls := t.calls ++ [c] } := by
  obtain ⟨r, hfilled⟩ := h.filled
  refine ⟨h.taken, ⟨r, hfilled.decoded, hfilled.decoder, hfilled.store, hfilled.events, ?_⟩, ?_⟩
  · have hnone : appended [c] = [] := by
      cases c with
      | append batch => exact absurd rfl (hno batch)
      | _ => rfl
    show (appended (t.calls ++ [c]) ++ _).Sublist _
    rw [appended_snoc, hnone, List.append_nil]
    exact hfilled.hits
  · show (HitTap.step t.hits c).2 = _
    rw [h.hits]
    exact step_snoc t.calls c

theorem submit_books {st : Staging} {t : DecodeTap} (h : Books binning st t) (block : RawBlock) :
    Books binning st (t.submit block) := by
  obtain ⟨htaken, ⟨r, hfilled⟩, hhits⟩ := h
  refine ⟨?_, ⟨r, hfilled.decoded, hfilled.decoder, hfilled.store, hfilled.events, hfilled.hits⟩,
    hhits⟩
  show ((t.fates ++ [(block, (t.queue.push List.length true block).1.getD false)]).filter
    fun f : RawBlock × Bool => f.2).map (·.1) = t.decoded ++ inWorks t.pc ++ _
  rw [List.filter_append, List.map_append, htaken]
  rcases (BlockQueue.push_cases List.length true block t.queue).2 with
    ⟨hyes, _, hitems⟩ | ⟨hno, hitems⟩
  · simp [DecodeTap.submit, hyes, hitems]
  · have hfate : (t.queue.push List.length true block).1.getD false = false := by
      cases hanswer : (t.queue.push List.length true block).1 with
      | none => rfl
      | some accepted =>
        refine eq_false_of_ne_true fun hyes => hno ?_
        rw [hanswer, ← hyes]
        rfl
    simp [DecodeTap.submit, hfate, hitems]

theorem received_other {s : Tapped n} {a : Action n} {i : Fin n}
    (h : ∀ block, a = .read i (some block) → block = []) : s.received a i = s.submitting i := by
  unfold received
  split
  · next j block =>
    split
    · next hnew =>
      rw [Function.update_of_ne]
      rintro rfl
      exact hnew.1 (h block rfl)
    · rfl
  · rfl

theorem base_blocks {s : Tapped n} (h : Tidy s) {a : Action n} {base : Readout n}
    (hstep : s.base.step cfg a = some base) {i : Fin n} (htap : (s.taps i).isSome)
    {fates : List RawBlock}
    (hblocks : (s.base.readers i).blocks = fates ++ (s.submitting i).toList) :
    (base.readers i).blocks = fates ++ (s.received a i).toList := by
  by_cases hread : ∃ block, a = .read i (some block) ∧ block ≠ []
  · obtain ⟨block, rfl, hfilled⟩ := hread
    have hpc : (s.base.readers i).pc = .reading := by
      cases step_takes hstep with
      | read _ _ hpc => exact hpc
    have hnone : s.submitting i = none := by
      cases hsubmitting : s.submitting i with
      | none => rfl
      | some other =>
        have hdispatching := (h.pending i other hsubmitting).2.1
        rw [hpc] at hdispatching
        exact hdispatching.elim
    have hnew : s.received (.read i (some block)) i = some block := by
      rw [received, if_pos ⟨hfilled, htap⟩, Function.update_self]
    rw [read_dispatches hstep hfilled, hnew]
    rw [hnone] at hblocks
    rw [Reader.dispatch, hblocks]
    simp
  · have hother : ∀ block, a = .read i (some block) → block = [] := fun block heq =>
      by_contra fun hfilled => hread ⟨block, heq, hfilled⟩
    rw [received_other hother, ← hblocks]
    cases step_moved hstep i with
    | kept hsame => exact hsame
    | received block heq hfilled => exact absurd (hother block heq) hfilled
    | answered block accepted _ hsame => exact hsame

theorem submit_handed {t₀ : DecodeTap} {fates : List (RawBlock × Bool)} {s : Tapped n} {i : Fin n}
    {t : DecodeTap} (h : Handed t₀ fates s i t) {block : RawBlock}
    (hsubmitting : s.submitting i = some block) (hpc : (s.base.readers i).pc = .checking) :
    ∃ fate, Handed t₀ (fates ++ [(block, fate)]) { s.setTap i (t.submit block) with
      submitting := Function.update s.submitting i none } i (t.submit block) := by
  obtain ⟨hfates, hblocks, hcounted, hrefused, hclosed, hreturned⟩ := h
  have hkept := submit_closed t block
  have hfates' : ∀ fate, (t.queue.push List.length true block).1.getD false = fate →
      (t.submit block).fates = t₀.fates ++ (fates ++ [(block, fate)]) := by
    rintro _ rfl
    rw [DecodeTap.submit, hfates, List.append_assoc]
  have hblocks' : ∀ fate : Bool, (s.base.readers i).blocks =
      (fates ++ [(block, fate)]).map (·.1) ++ (Function.update s.submitting i none i).toList := by
    intro fate
    rw [hblocks, hsubmitting, Function.update_self, List.map_append]
    simp
  have hopen : t₀.queue.closed = false → t.queue.closed = false := by
    refine fun hfresh => eq_false_of_ne_true fun hyes => ?_
    have hdrained := (hclosed hfresh hyes).1
    rw [hpc] at hdrained
    cases hdrained
  have hstart : t.queue.closed = false → t₀.queue.closed = false := fun hno =>
    eq_false_of_ne_true fun hyes => absurd (hno.symm.trans (hrefused hyes).1) Bool.false_ne_true
  have hleft : t.queue.closed = false → t.pc = .returned →
      (t.submit block).queue.items = [] ∧ (t.submit block).queue.closed = true :=
    fun hno hreturn => absurd (hno.symm.trans (hreturned hreturn).2) Bool.false_ne_true
  rcases BlockQueue.push_spec List.length true block t.queue with
    hwaits | ⟨hyes, hpush⟩ | ⟨hno, _, q, hpush, _, _, _, hsame, _⟩ | ⟨hno, _, hpush⟩
  · exact absurd (congrArg Prod.fst hwaits) (BlockQueue.push_late List.length block t.queue)
  · have hshut : t₀.queue.closed = true :=
      eq_true_of_ne_false fun hfresh => absurd ((hopen hfresh).symm.trans hyes) Bool.false_ne_true
    have hqueue : (t.submit block).queue = t.queue := by rw [DecodeTap.submit, hpush]
    obtain ⟨_, hdropped, hnone⟩ := hrefused hshut
    refine ⟨false, hfates' false (by rw [hpush]; rfl), hblocks' false,
      fun hfresh => absurd (hfresh.symm.trans hshut) Bool.false_ne_true, fun _ => ?_,
      fun hfresh => absurd (hfresh.symm.trans hshut) Bool.false_ne_true, fun hreturn => ?_⟩
    · rw [hqueue]
      exact ⟨hyes, hdropped, List.forall_mem_append.mpr ⟨hnone, List.forall_mem_singleton.mpr rfl⟩⟩
    · rw [hqueue]
      exact hreturned hreturn
  · have hfresh := hstart hno
    have hqueue : (t.submit block).queue = q := by rw [DecodeTap.submit, hpush]
    refine ⟨true, hfates' true (by rw [hpush]; rfl), hblocks' true, fun _ => ?_,
      fun hshut => absurd (hfresh.symm.trans hshut) Bool.false_ne_true,
      fun _ hq => absurd (hno.symm.trans (hkept.symm.trans hq)) Bool.false_ne_true, hleft hno⟩
    rw [hqueue, hsame, hcounted hfresh, List.filter_append]
    simp
  · have hfresh := hstart hno
    have hqueue : (t.submit block).queue = { t.queue with
        dropped := t.queue.dropped + 1, droppedBytes := t.queue.droppedBytes + block.length } := by
      rw [DecodeTap.submit, hpush]
    refine ⟨false, hfates' false (by rw [hpush]; rfl), hblocks' false, fun _ => ?_,
      fun hshut => absurd (hfresh.symm.trans hshut) Bool.false_ne_true,
      fun _ hq => absurd (hno.symm.trans (hkept.symm.trans hq)) Bool.false_ne_true, hleft hno⟩
    rw [hqueue, List.filter_append]
    show t.queue.dropped + 1 = _
    rw [hcounted hfresh]
    simp [Nat.add_assoc]

/-- What every step of a tapped readout keeps of stages and stop. -/
structure Steady (s : Tapped n) : Prop where
  tidy : Tidy s
  upright : ∀ i, Upright s.base i
  standing : Standing s.base
  stopped : ∀ i t, s.taps i = some t → Passed i s.base.stopPc → t.stopped = true

theorem step_steady {s s' : Tapped n} {b : TapAction n} (h : Steady s)
    (hb : ∀ a, label b = some a → Fits a) (hstep : s.step cfg binning b = some s') : Steady s' := by
  have htidy := step_tidy h.tidy hb hstep
  have hset : ∀ {i : Fin n} {t t' : DecodeTap}, s.taps i = some t →
      (t.stopped = true → t'.stopped = true) → ∀ j u, (s.setTap i t').taps j = some u →
        Passed j s.base.stopPc → u.stopped = true := by
    intro i t t' htap hkept j u hu hpassed
    by_cases hj : j = i
    · subst hj
      rw [setTap_same] at hu
      cases hu
      exact hkept (h.stopped j t htap hpassed)
    · rw [setTap_other s t' hj] at hu
      exact h.stopped j u hu hpassed
  cases step_happens hstep with
  | base a base hfree hbase =>
    refine ⟨htidy, fun i => step_upright (h.upright i) hbase,
      step_standing h.upright h.standing hbase, fun i t htap hpassed => ?_⟩
    rcases step_passes (h.upright i) hbase hpassed with hbefore | ⟨rfl, reads, hdraining⟩
    · exact h.stopped i t htap hbefore
    · have hstage := (Bool.or_eq_false_iff.mp hfree).2
      rw [waitsForTap_draining hdraining, Option.any_some] at hstage
      change s.taps i = some t at htap
      rw [htap, Option.any_some] at hstage
      simpa using hstage
  | submit i block t hsubmitting htap hpc =>
    exact ⟨htidy, h.upright, h.standing, hset htap id⟩
  | works b i t t' hthread htap hworks =>
    refine ⟨htidy, h.upright, h.standing, hset htap fun hstopped => ?_⟩
    have hpc := of_decide_eq_true (Bool.and_eq_true_iff.mp hstopped).2
    exact absurd hpc (DecodeTap.works_busy hworks)
  | call i c t houtside htap => exact ⟨htidy, h.upright, h.standing, hset htap id⟩
  | close i t hdraining hreturned htap hrunning =>
    refine ⟨htidy, h.upright, h.standing, hset htap fun hstopped => ?_⟩
    rw [DecodeTap.stopped, hrunning] at hstopped
    cases hstopped

theorem ofDaq_steady {d : Daq} (hboards : ∀ r ∈ d.runners, r.running = true)
    (stages : Fin d.runners.length → Option DecodeStage) : Steady (.ofDaq d stages) :=
  ⟨ofDaq_tidy d stages, fun _ _ => hboards _ (List.getElem_mem _), ofDaq_standing d,
    fun _ _ _ hpassed => hpassed.elim⟩

theorem Steady.rests {s : Tapped n} (h : Steady s) (hstop : s.base.stopPc = .stopped) {i : Fin n}
    {t : DecodeTap} (htap : s.taps i = some t) : ∃ stage : DecodeStage, stage.tap = t := by
  have hstopped := h.stopped i t htap (by rw [hstop]; trivial)
  obtain ⟨hrunning, hpc⟩ := Bool.and_eq_true_iff.mp hstopped
  exact ⟨⟨t, by simpa using hrunning, of_decide_eq_true hpc,
    fun block hblock => h.tidy.sizes i t htap block (List.mem_append_right _ hblock)⟩, rfl⟩

/-- What every step keeps of the books of all stages. -/
structure Kept (binning : Binning) (stages : Fin n → Option DecodeStage) (s : Tapped n) : Prop where
  steady : Steady s
  handed : ∀ i t, s.taps i = some t →
    ∃ stage fates, stages i = some stage ∧ Handed stage.tap fates s i t
  books : ∀ i t stage st, s.taps i = some t → stages i = some stage →
    Books binning st stage.tap → Books binning st t

theorem Kept.setTap {stages : Fin n → Option DecodeStage} {s : Tapped n}
    (h : Kept binning stages s) {i : Fin n} {t t' : DecodeTap} (htap : s.taps i = some t)
    {submitting : Fin n → Option RawBlock} (hother : ∀ j, j ≠ i → submitting j = s.submitting j)
    (hsteady : Steady { s.setTap i t' with submitting := submitting })
    (hhanded : ∀ t₀ fates, Handed t₀ fates s i t →
      ∃ fates', Handed t₀ fates' { s.setTap i t' with submitting := submitting } i t')
    (hbooks : ∀ st, Books binning st t → Books binning st t') :
    Kept binning stages { s.setTap i t' with submitting := submitting } := by
  refine ⟨hsteady, fun j u hu => ?_, fun j u stage st hu hstage hold => ?_⟩
  · change (s.setTap i t').taps j = some u at hu
    by_cases hj : j = i
    · subst hj
      rw [setTap_same] at hu
      cases hu
      obtain ⟨stage, fates, hstage, hold⟩ := h.handed j t htap
      obtain ⟨fates', hnew⟩ := hhanded stage.tap fates hold
      exact ⟨stage, fates', hstage, hnew⟩
    · rw [setTap_other s t' hj] at hu
      obtain ⟨stage, fates, hstage, hold⟩ := h.handed j u hu
      refine ⟨stage, fates, hstage, hold.later, ?_, hold.counted, hold.refused, hold.closed,
        hold.returned⟩
      show _ = _ ++ (submitting j).toList
      rw [hother j hj]
      exact hold.blocks
  · change (s.setTap i t').taps j = some u at hu
    by_cases hj : j = i
    · subst hj
      rw [setTap_same] at hu
      cases hu
      exact hbooks st (h.books j t stage st htap hstage hold)
    · rw [setTap_other s t' hj] at hu
      exact h.books j u stage st hu hstage hold

theorem step_kept {stages : Fin n → Option DecodeStage} {s s' : Tapped n} {b : TapAction n}
    (h : Kept binning stages s) (hb : ∀ a, label b = some a → Fits a)
    (hstep : s.step cfg binning b = some s') : Kept binning stages s' := by
  have hsteady := step_steady h.steady hb hstep
  cases step_happens hstep with
  | base a base hfree hbase =>
    refine ⟨hsteady, fun i t htap => ?_, h.books⟩
    obtain ⟨stage, fates, hstage, hold⟩ := h.handed i t htap
    exact ⟨stage, fates, hstage, hold.later, base_blocks h.steady.tidy hbase
      (Option.isSome_iff_exists.mpr ⟨t, htap⟩) hold.blocks, hold.counted, hold.refused,
      fun hopen hq => step_drained (hold.closed hopen hq) hbase, hold.returned⟩
  | submit i block t hsubmitting htap hpc =>
    refine h.setTap htap (fun j hj => Function.update_of_ne hj _ _) hsteady
      (fun t₀ fates hold => ?_) fun st hold => submit_books hold block
    obtain ⟨fate, hnew⟩ := submit_handed hold hsubmitting hpc
    exact ⟨_, hnew⟩
  | works b i t t' hthread htap hworks =>
    exact h.setTap htap (fun _ _ => rfl) hsteady
      (fun t₀ fates hold => ⟨fates, works_handed hold hworks⟩) fun st hold => works_books hold hworks
  | call i c t houtside htap =>
    refine h.setTap htap (fun _ _ => rfl) hsteady (fun t₀ fates hold => ⟨fates, ?_⟩)
      fun st hold => call_books hold houtside
    exact ⟨hold.later, hold.blocks, hold.counted, hold.refused, hold.closed, hold.returned⟩
  | close i t hdraining hreturned htap hrunning =>
    refine h.setTap htap (fun _ _ => rfl) hsteady (fun t₀ fates hold => ⟨fates, ?_⟩) fun st hold => ?_
    · refine ⟨hold.later, hold.blocks, hold.counted, fun hshut => ?_,
        fun _ _ => ⟨hreturned, .inr (isDraining_iff.mp hdraining)⟩,
        fun hpc => ⟨(hold.returned hpc).1, rfl⟩⟩
      exact ⟨rfl, (hold.refused hshut).2⟩
    · obtain ⟨r, hfilled⟩ := hold.filled
      exact ⟨hold.taken, ⟨r, hfilled.decoded, hfilled.decoder, hfilled.store, hfilled.events,
        hfilled.hits⟩, hold.hits⟩

theorem offered_appended (calls : List TapCall) :
    (HitTap.offered {} calls).flatten.Sublist (appended calls) := by
  induction calls using List.reverseRecOn with
  | nil => exact List.Sublist.refl []
  | append_singleton calls c ih =>
    rw [HitTap.offered, HitTap.noted_snoc, List.flatten_append, appended_snoc]
    refine List.Sublist.append ih ?_
    cases c with
    | append batch =>
      dsimp only
      split
      · exact List.Sublist.refl _
      · exact List.nil_sublist _
    | _ => exact List.nil_sublist _

theorem taken_hits {st : Staging} {t : DecodeTap} (h : Books binning st t) {r : Decoded}
    (hr : Filled binning st t r) : ((Transducer.run HitTap.step {} t.calls).1 ++ t.hits.hits).Sublist
      (appended st.calls ++ HitTap.batchOf r.events) := by
  rw [h.hits]
  exact (HitTap.kept_prefixes t.calls).sublist.trans ((offered_appended t.calls).trans
    ((List.sublist_append_left _ _).trans hr.hits))

theorem stopped_handed {t₀ : DecodeTap} {fates : List (RawBlock × Bool)} {s : Tapped n}
    (h : Steady s) (hstop : s.base.stopPc = .stopped) {i : Fin n} {t : DecodeTap}
    (htap : s.taps i = some t) (hhanded : Handed t₀ fates s i t) :
    (s.base.readers i).blocks = fates.map (·.1) ∧ t.pc = .returned ∧ t.queue.items = [] := by
  have hpassed : Passed i s.base.stopPc := by
    rw [hstop]
    trivial
  have hstopped := h.stopped i t htap hpassed
  have hpc := of_decide_eq_true (Bool.and_eq_true_iff.mp hstopped).2
  refine ⟨?_, hpc, (hhanded.returned hpc).1⟩
  have hnone : s.submitting i = none := by
    cases hsubmitting : s.submitting i with
    | none => rfl
    | some block =>
      have hdispatching := (h.tidy.pending i block hsubmitting).2.1
      rw [h.standing.passed i hpassed] at hdispatching
      exact hdispatching.elim
  have hblocks := hhanded.blocks
  rw [hnone] at hblocks
  simpa using hblocks

theorem Books.all_decoded {st : Staging} {t : DecodeTap} (h : Books binning st t)
    (hpc : t.pc = .returned) (hitems : t.queue.items = []) :
    (t.fates.filter (·.2)).map (·.1) = t.decoded := by
  have htaken := h.taken
  rw [hpc, hitems] at htaken
  simpa [inWorks] using htaken

theorem construct_books (st : Staging) : Books binning st (.construct st) where
  taken := rfl
  filled := ⟨_, rfl, rfl, rfl, rfl, by simp [DecodeTap.construct, unappended]⟩
  hits := rfl

theorem start_books {stage : DecodeStage} {st : Staging} (h : Books binning st stage.tap) :
    Books binning st stage.tap.start := by
  obtain ⟨htaken, ⟨r, hfilled⟩, hhits⟩ := h
  obtain ⟨hdecoded, hdecoder, hstore, hevents, hsub⟩ := hfilled
  rw [stage.returned] at htaken hevents hsub
  rw [stage.start_eq]
  exact ⟨htaken, ⟨r, hdecoded, hdecoder, hstore, hevents, hsub⟩, hhits⟩

theorem start_handed (stage : DecodeStage) {s : Tapped n} {i : Fin n}
    (hread : (s.base.readers i).blocks = []) (hnone : s.submitting i = none) :
    Handed stage.tap [] s i stage.tap.start := by
  rw [stage.start_eq]
  refine ⟨(List.append_nil _).symm, ?_, fun _ => rfl, fun hshut => ?_, fun hopen hshut => ?_, nofun⟩
  · rw [hread, hnone]
    rfl
  · exact ⟨hshut, rfl, nofun⟩
  · exact absurd (hopen.symm.trans hshut) Bool.false_ne_true

theorem ofDaq_kept {d : Daq} (hboards : ∀ r ∈ d.runners, r.running = true)
    (stages : Fin d.runners.length → Option DecodeStage) :
    Kept binning stages (.ofDaq d stages) := by
  refine ⟨ofDaq_steady hboards stages, fun i t ht => ?_, fun i t stage st ht hstage hbooks => ?_⟩
  · obtain ⟨stage, hstage, rfl⟩ := Option.map_eq_some_iff.mp ht
    exact ⟨stage, [], hstage, start_handed stage rfl rfl⟩
  · obtain ⟨_, hstage', rfl⟩ := Option.map_eq_some_iff.mp ht
    cases hstage.symm.trans hstage'
    exact start_books hbooks

theorem run_kept {d : Daq} (hboards : ∀ r ∈ d.runners, r.running = true)
    {stages : Fin d.runners.length → Option DecodeStage} {bs : List (TapAction d.runners.length)}
    (hbs : ∀ b ∈ bs, ∀ a, label b = some a → Fits a) {s : Tapped d.runners.length}
    (hrun : run (Tapped.step cfg binning) (.ofDaq d stages) bs = some s) :
    Kept binning stages s :=
  run_invariant (fun _ _ b hb h hstep => step_kept h (hbs b hb) hstep) (ofDaq_kept hboards stages)
    hrun

/-- In every run, the blocks that a board's reader handed to its stage are the blocks read.
If the queue of the stage was open at the start, those that it took are decoded, in the hands
of the thread or waiting, and the others are counted; if an earlier stop had closed it, none
is taken and none counted. Store, counter and hits are those of the blocks decoded. At the end
of the run these are all that were taken, and the stage is at rest for the next. -/
theorem taps_account {before : List Daq.Call} {o : Launches}
    (hstarted : ((Daq.history cfg {} before).start cfg o).1 = true)
    {stages : Fin (Daq.history cfg {} (before ++ [.start o])).runners.length → Option DecodeStage}
    {bs : List (TapAction (Daq.history cfg {} (before ++ [.start o])).runners.length)}
    (hbs : ∀ b ∈ bs, ∀ a, label b = some a → Fits a)
    {s : Tapped (Daq.history cfg {} (before ++ [.start o])).runners.length}
    (hrun : run (Tapped.step cfg binning)
      (.ofDaq (Daq.history cfg {} (before ++ [.start o])) stages) bs = some s)
    {i : Fin _} {t : DecodeTap} (htap : s.taps i = some t) :
    ∃ stage fates, stages i = some stage ∧ Handed stage.tap fates s i t ∧
      (∀ st, Books binning st stage.tap → Books binning st t ∧ ∃ r, Filled binning st t r ∧
        ((Transducer.run HitTap.step {} t.calls).1 ++ t.hits.hits).Sublist
          (appended st.calls ++ HitTap.batchOf r.events)) ∧
      (s.base.stopPc = .stopped → (s.base.readers i).blocks = fates.map (·.1) ∧
        (∀ st, Books binning st stage.tap → (t.fates.filter (·.2)).map (·.1) = t.decoded) ∧
        ∃ next : DecodeStage, next.tap = t) := by
  have hkept := @run_kept cfg binning _ (Recording.started_boards hstarted) _ _ hbs _ hrun
  obtain ⟨stage, fates, hstage, hhanded⟩ := hkept.handed i t htap
  have hbooks : ∀ st, Books binning st stage.tap → Books binning st t := fun st hold =>
    hkept.books i t stage st htap hstage hold
  refine ⟨stage, fates, hstage, hhanded, fun st hold => ?_, fun hstop => ?_⟩
  · obtain ⟨r, hr⟩ := (hbooks st hold).filled
    exact ⟨hbooks st hold, r, hr, taken_hits (hbooks st hold) hr⟩
  · obtain ⟨hblocks, hpc, hitems⟩ := stopped_handed hkept.steady hstop htap hhanded
    exact ⟨hblocks, fun st hold => (hbooks st hold).all_decoded hpc hitems,
      hkept.steady.rests hstop htap⟩

def pairBlock : List (TapAction pairDaq.runners.length) :=
  [.base (.check pairFirst),
    .base (.read pairFirst (some (BoardStream.payload [BoardStream.hit 1]))),
    .base (.push pairFirst false), .base (.count pairFirst), .submit pairFirst]

/-- Of three blocks the stage takes two; the run is stopped with the second still waiting. -/
def pairActions : List (TapAction pairDaq.runners.length) :=
  [[.call pairFirst (.setEnabled true)], pairBlock, [.pop pairFirst, .ask pairFirst],
    pairBlock, pairBlock,
    [.base .pop, .base (.write {}), .decode pairFirst, .append pairFirst, .base .stop,
      .base .stopBoard, .base (.check pairFirst), .base .join, .base (.drainCheck true),
      .close pairFirst, .pop pairFirst, .ask pairFirst, .call pairFirst .take, .decode pairFirst,
      .append pairFirst, .leave pairFirst, .base .release, .base .stopBoard,
      .base (.check pairSecond), .base .join, .base (.drainCheck true), .base .release,
      .base .stopBoard, .base .pop, .base (.write {}), .base .pop, .base (.write {}),
      .base .writerReturn, .base (.joinWriter {} {})]].flatten

theorem pair_taps : ∃ s t, run (Tapped.step pairConfig flatBinning)
    (.ofDaq pairDaq pairStages) pairActions = some s ∧
      s.taps pairFirst = some t ∧ s.base.stopPc = .stopped ∧
      t.fates.map (·.2) = [true, true, false] := by
  have hmap : (run (Tapped.step pairConfig flatBinning)
      (.ofDaq pairDaq pairStages) pairActions).bind (fun s =>
        (s.taps pairFirst).map fun t => (s.base.stopPc, t.fates.map (·.2))) =
      some (.stopped, [true, true, false]) := by decide +kernel
  obtain ⟨s, hs, hmap⟩ := Option.bind_eq_some_iff.mp hmap
  obtain ⟨t, ht, heq⟩ := Option.map_eq_some_iff.mp hmap
  obtain ⟨hstop, hfates⟩ := Prod.mk.inj heq
  exact ⟨s, t, hs, ht, hstop, hfates⟩

theorem taps_account_pair : ∃ s t, run (Tapped.step pairConfig flatBinning)
    (.ofDaq pairDaq pairStages) pairActions = some s ∧ s.taps pairFirst = some t ∧
      ∃ fates, Handed (.construct pairStage) fates s pairFirst t ∧ t.queue.dropped = 1 ∧
        Books flatBinning pairStage t ∧ t.decoded.length = 2 ∧
        ∃ next : DecodeStage, next.tap = t := by
  obtain ⟨s, t, hs, ht, hstop, hfates⟩ := pair_taps
  have hfits : ∀ b ∈ pairActions, ∀ a, label b = some a → Fits a :=
    fits_labels (by decide +kernel)
  have hstarted : ((Daq.history pairConfig {} pair).start
      pairConfig {}).1 = true := by decide +kernel
  obtain ⟨stage, fates, hstage, hhanded, hbooks, hend⟩ :=
    @taps_account pairConfig flatBinning pair {} hstarted pairStages
      pairActions hfits s hs pairFirst t ht
  cases hstage
  have hbuilt := @construct_books flatBinning pairStage
  obtain ⟨_, hdecoded, hnext⟩ := hend hstop
  have hnew : t.fates = fates := hhanded.later
  refine ⟨s, t, hs, ht, fates, hhanded, ?_, (hbooks pairStage hbuilt).1, ?_, hnext⟩
  · have hcount := congrArg (List.countP (!·)) hfates
    rw [List.countP_map] at hcount
    rw [hhanded.counted rfl, ← List.countP_eq_length_filter, ← hnew]
    exact (Nat.zero_add _).trans hcount
  · have hcount := congrArg (List.countP id) hfates
    rw [List.countP_map] at hcount
    rw [← hdecoded pairStage hbuilt, List.length_map, ← List.countP_eq_length_filter]
    exact hcount

end Tapped
end CaenDaq
