import CaenDaq.Readout
import CaenDaq.Recording
import Mathlib.Algebra.BigOperators.Fin

/-!
# From the boards to the file

In any schedule each block is at one place between its board and the part files, and
the counters tell which. The stop of the run takes the places away one by one, in an
order that leaves nothing behind.
-/

namespace CaenDaq
namespace Delivery

open Readout

variable {n : ℕ} {cfg : WriterConfig}

def accepted (r : Reader) : List RawBlock := (r.fates.filter (·.2)).map (·.1)

def dropped (r : Reader) : List RawBlock := (r.fates.filter (!·.2)).map (·.1)

def inHand : ReaderPc → List RawBlock
  | .pushing block => [block]
  | _ => []

/-- The block on which the queue has answered and no counter yet. -/
def uncounted (answer : Bool) : ReaderPc → List RawBlock
  | .counting block accepted => if accepted = answer then [block] else []
  | _ => []

/-- The counters of a reader agree with what happened to its blocks. -/
structure Counted (r : Reader) : Prop where
  buffersRead : r.buffersRead = r.blocks.length
  bytesRead : r.bytesRead = r.blocks.flatten.length
  blocks : r.write = true → r.blocks = r.fates.map (·.1) ++ inHand r.pc
  silent : r.write = false → r.fates = [] ∧ inHand r.pc = []
  bytesWritten : r.bytesWritten + (uncounted true r.pc).flatten.length = (accepted r).flatten.length
  blocksDropped : r.blocksDropped + (uncounted false r.pc).length = (dropped r).length

structure Idle (pc : ReaderPc) : Prop where
  inHand : inHand pc = []
  uncounted : ∀ answer, uncounted answer pc = []

theorem idle_checking : Idle .checking := ⟨rfl, fun _ => rfl⟩

theorem idle_reading : Idle .reading := ⟨rfl, fun _ => rfl⟩

theorem idle_returned : Idle .returned := ⟨rfl, fun _ => rfl⟩

theorem Counted.move {r : Reader} (h : Counted r) (hpc : Idle r.pc) {pc : ReaderPc} (hpc' : Idle pc)
    (running : Bool) (commErrors : ℕ) :
    Counted { r with pc := pc, running := running, commErrors := commErrors } := by
  have hhand : inHand pc = inHand r.pc := hpc'.inHand.trans hpc.inHand.symm
  refine ⟨h.buffersRead, h.bytesRead, ?_, ?_, ?_, ?_⟩
  · rw [hhand]
    exact h.blocks
  · rw [hhand]
    exact h.silent
  · rw [hpc'.uncounted, ← hpc.uncounted true]
    exact h.bytesWritten
  · rw [hpc'.uncounted, ← hpc.uncounted false]
    exact h.blocksDropped

theorem Counted.dispatch {r : Reader} (h : Counted r) (hpc : Idle r.pc) (block : RawBlock) :
    Counted (r.dispatch block) := by
  have hbytes := h.bytesWritten
  have hdropped := h.blocksDropped
  rw [hpc.uncounted] at hbytes hdropped
  refine ⟨?_, ?_, ?_, ?_, ?_, ?_⟩
  · rw [Reader.dispatch, h.buffersRead, List.length_append, List.length_singleton]
  · rw [Reader.dispatch, h.bytesRead, List.flatten_append, List.length_append,
      List.flatten_singleton]
  · intro hwrite
    change r.write = true at hwrite
    have hblocks := h.blocks hwrite
    rw [hpc.inHand, List.append_nil] at hblocks
    show r.blocks ++ [block] = r.fates.map (·.1) ++ inHand (if r.write then _ else _)
    rw [if_pos hwrite, hblocks]
    rfl
  · intro hwrite
    change r.write = false at hwrite
    show r.fates = [] ∧ inHand (if r.write then _ else _) = []
    rw [hwrite, if_neg Bool.false_ne_true]
    exact ⟨(h.silent hwrite).1, rfl⟩
  · show r.bytesWritten + (uncounted true (if r.write then _ else _)).flatten.length = _
    rw [show uncounted true (if r.write then .pushing block else .checking) = [] by split <;> rfl]
    exact hbytes
  · show r.blocksDropped + (uncounted false (if r.write then _ else _)).length = _
    rw [show uncounted false (if r.write then .pushing block else .checking) = [] by split <;> rfl]
    exact hdropped

structure Reads (r r' : Reader) : Prop where
  counted : Counted r'
  write : r'.write = r.write
  running : r'.running = r.running
  fates : r'.fates = r.fates

theorem Counted.reads_nothing {r : Reader} (h : Counted r) (hpc : Idle r.pc) {pc : ReaderPc}
    (hpc' : Idle pc) (commErrors : ℕ) : Reads r { r with pc := pc, commErrors := commErrors } :=
  ⟨h.move hpc hpc' r.running commErrors, rfl, rfl, rfl⟩

theorem Counted.reads_block {r : Reader} (h : Counted r) (hpc : Idle r.pc) (block : RawBlock) :
    Reads r (r.dispatch block) := ⟨h.dispatch hpc block, rfl, rfl, rfl⟩

theorem Counted.readLoop {r : Reader} (h : Counted r) (hpc : r.pc = .reading)
    (answer : Option RawBlock) : Reads r (r.readLoop answer) := by
  have hidle : Idle r.pc := hpc ▸ idle_reading
  unfold Reader.readLoop
  split
  · exact h.reads_nothing hidle idle_checking _
  · split
    · exact h.reads_nothing hidle idle_checking _
    · exact h.reads_block hidle _

theorem Counted.readDrain {r : Reader} (h : Counted r) (hpc : r.pc = .reading)
    (answer : Option RawBlock) : Reads r (r.readDrain answer) := by
  have hidle : Idle r.pc := hpc ▸ idle_reading
  unfold Reader.readDrain
  split
  · exact h.reads_nothing hidle idle_returned _
  · split
    · exact h.reads_nothing hidle idle_returned _
    · exact h.reads_block hidle _

theorem Counted.answered {r : Reader} (h : Counted r) {block : RawBlock} (hpc : r.pc = .pushing block)
    (answer : Bool) :
    Counted { r with pc := .counting block answer, fates := r.fates ++ [(block, answer)] } := by
  have hbytes := h.bytesWritten
  have hdropped := h.blocksDropped
  rw [hpc] at hbytes hdropped
  refine ⟨h.buffersRead, h.bytesRead, ?_, ?_, ?_, ?_⟩
  · intro hwrite
    have hblocks := h.blocks hwrite
    rw [hpc] at hblocks
    rw [List.map_append, List.append_assoc, hblocks]
    rfl
  · intro hwrite
    have hnone := (h.silent hwrite).2
    rw [hpc] at hnone
    exact absurd hnone (List.cons_ne_nil _ _)
  · cases answer <;> simpa [uncounted, accepted, List.filter_append] using hbytes
  · cases answer <;> simpa [uncounted, dropped, List.filter_append] using hdropped

theorem Counted.count {r : Reader} (h : Counted r) {block : RawBlock} {answer : Bool}
    (hpc : r.pc = .counting block answer) : Counted (r.count block answer) := by
  have hbytes := h.bytesWritten
  have hdropped := h.blocksDropped
  have hblocks := h.blocks
  have hsilent := h.silent
  rw [hpc] at hbytes hdropped hblocks hsilent
  cases answer with
  | true =>
    refine ⟨h.buffersRead, h.bytesRead, hblocks, hsilent, ?_, ?_⟩
    · simpa [Reader.count, uncounted, accepted] using hbytes
    · simpa [Reader.count, uncounted, dropped] using hdropped
  | false =>
    refine ⟨h.buffersRead, h.bytesRead, hblocks, hsilent, ?_, ?_⟩
    · simpa [Reader.count, uncounted, accepted] using hbytes
    · simpa [Reader.count, uncounted, dropped] using hdropped

/-- The blocks between the queue's answer and the file, in the order of the file. -/
def held : WriterPc n → List (Fin n × RawBlock)
  | .holding block => [block]
  | _ => []

def pipeline (s : Readout n) : List (Fin n × RawBlock) :=
  s.written ++ held s.writerPc ++ s.queue.items

def ofBoard (i : Fin n) (blocks : List (Fin n × RawBlock)) : List RawBlock :=
  (blocks.filter (·.1 = i)).map (·.2)

theorem ofBoard_append (i : Fin n) (xs ys : List (Fin n × RawBlock)) :
    ofBoard i (xs ++ ys) = ofBoard i xs ++ ofBoard i ys := by
  rw [ofBoard, List.filter_append, List.map_append]
  rfl

def Passed (i : ℕ) : StopPc → Prop
  | .notCalled => False
  | .stopping j | .joining j | .draining j _ => i < j
  | .joiningWriter | .stopped => True

def Told (i : ℕ) : StopPc → Prop
  | .notCalled => False
  | .stopping j => i < j
  | .joining j | .draining j _ => i ≤ j
  | .joiningWriter | .stopped => True

structure NoWriter (s : Readout n) : Prop where
  writerPc : s.writerPc = .returned
  readers : ∀ i, (s.readers i).write = false
  loop : s.loop = { writer := {} }

structure Stored (l : WriterLoop) : Prop where
  payload : l.writer.payload = l.accepted.flatten
  totalBytes : l.writer.totalBytes = l.accepted.flatten.length

structure Invariant (s : Readout n) : Prop where
  readers : ∀ i, Counted (s.readers i)
  passed : ∀ i : Fin n, Passed i s.stopPc → (s.readers i).pc = .returned
  untold : ∀ i : Fin n, ¬Told i s.stopPc → (s.readers i).running = true
  pipeline : ∀ i, accepted (s.readers i) = ofBoard i (pipeline s)
  returned : s.writerPc = .returned → s.queue.items = [] ∧
    (s.queue.closed = true ∨ ∀ i, (s.readers i).write = false)
  accepted : s.loop.accepted = s.written.map (·.2)
  writer : s.stopPc ≠ .stopped → s.loop.Flawless ∨ NoWriter s
  stored : s.stopPc = .stopped → s.writerPc = .returned ∧ Stored s.loop

theorem forall_update {f : Fin n → Reader} {i : Fin n} {r : Reader} (P : Fin n → Reader → Prop)
    (hi : P i r) (hf : ∀ j, j ≠ i → P j (f j)) : ∀ j, P j (Function.update f i r j) :=
  (Function.forall_update_iff f P).mpr ⟨hi, hf⟩

theorem Invariant.setReader {s : Readout n} (h : Invariant s) {i : Fin n} {r : Reader}
    (hcounted : Counted r) (hwrite : r.write = (s.readers i).write)
    (hfates : r.fates = (s.readers i).fates) (hpassed : Passed i s.stopPc → r.pc = .returned)
    (huntold : ¬Told i s.stopPc → r.running = true) : Invariant (s.setReader i r) := by
  have hwrites : (∀ j, (s.readers j).write = false) →
      ∀ j, ((s.setReader i r).readers j).write = false := fun hall =>
    forall_update (fun _ r => r.write = false) (hwrite.trans (hall i)) fun j _ => hall j
  refine ⟨?_, ?_, ?_, ?_, ?_, h.accepted, ?_, h.stored⟩
  · exact forall_update (fun _ => Counted) hcounted fun j _ => h.readers j
  · exact forall_update (fun j r => Passed j s.stopPc → r.pc = .returned) hpassed
      fun j _ => h.passed j
  · exact forall_update (fun j r => ¬Told j s.stopPc → r.running = true) huntold
      fun j _ => h.untold j
  · refine forall_update (fun j r => Delivery.accepted r = ofBoard j (Delivery.pipeline s)) ?_
      fun j _ => h.pipeline j
    rw [Delivery.accepted, hfates]
    exact h.pipeline i
  · exact fun hreturned => (h.returned hreturned).imp_right (Or.imp_right hwrites)
  · exact fun hstop => (h.writer hstop).imp_right fun hno =>
      ⟨hno.writerPc, hwrites hno.readers, hno.loop⟩

theorem Invariant.setStopPc {s : Readout n} (h : Invariant s) {pc : StopPc}
    (hpassed : ∀ i : Fin n, Passed i pc → (s.readers i).pc = .returned)
    (huntold : ∀ i : Fin n, ¬Told i pc → (s.readers i).running = true)
    (hbefore : s.stopPc ≠ .stopped) (hafter : pc ≠ .stopped) :
    Invariant { s with stopPc := pc } :=
  ⟨h.readers, hpassed, huntold, h.pipeline, h.returned, h.accepted,
    fun _ => (h.writer hbefore).imp_right fun hno => ⟨hno.writerPc, hno.readers, hno.loop⟩,
    fun hstop => absurd hstop hafter⟩

/-- A board whose reader has not returned is still before the stopping thread. -/
theorem Invariant.not_passed {s : Readout n} (h : Invariant s) {i : Fin n}
    (hpc : (s.readers i).pc ≠ .returned) : ¬Passed i s.stopPc := fun hp => hpc (h.passed i hp)

theorem Invariant.writer_busy {s : Readout n} (h : Invariant s) (hbusy : s.writerPc ≠ .returned) :
    s.stopPc ≠ .stopped ∧ s.loop.Flawless := by
  have hrunning : s.stopPc ≠ .stopped := fun hstop => hbusy (h.stored hstop).1
  exact ⟨hrunning, (h.writer hrunning).resolve_right fun hno => hbusy hno.writerPc⟩

theorem check_invariant {s s' : Readout n} (h : Invariant s) {i : Fin n}
    (hstep : s.check i = some s') : Invariant s' := by
  unfold Readout.check at hstep
  dsimp only at hstep
  split at hstep
  · next hpc =>
    cases hstep
    have hactive := h.not_passed (i := i) (by simp [hpc.1])
    refine h.setReader ((h.readers i).move (hpc.1 ▸ idle_checking) ?_ _ _) rfl rfl
      (fun hp => absurd hp hactive) (h.untold i)
    split
    · exact idle_reading
    · exact idle_returned
  · cases hstep

theorem read_invariant {s s' : Readout n} (h : Invariant s) {i : Fin n} {answer : Option RawBlock}
    (hstep : s.read i answer = some s') : Invariant s' := by
  unfold Readout.read at hstep
  dsimp only at hstep
  split at hstep
  · next hpc =>
    cases hstep
    have hactive := h.not_passed (i := i) (by simp [hpc])
    have hreads : Reads (s.readers i) (if s.isDraining i then (s.readers i).readDrain answer
        else (s.readers i).readLoop answer) := by
      split
      · exact (h.readers i).readDrain hpc answer
      · exact (h.readers i).readLoop hpc answer
    exact h.setReader hreads.counted hreads.write hreads.fates (fun hp => absurd hp hactive)
      fun hnot => hreads.running.trans (h.untold i hnot)
  · cases hstep

theorem count_invariant {s s' : Readout n} (h : Invariant s) {i : Fin n}
    (hstep : s.count i = some s') : Invariant s' := by
  unfold Readout.count at hstep
  dsimp only at hstep
  split at hstep
  · next block answer hpc =>
    cases hstep
    have hactive := h.not_passed (i := i) (by simp [hpc])
    have hframe : ((s.readers i).count block answer).write = (s.readers i).write ∧
        ((s.readers i).count block answer).running = (s.readers i).running ∧
        ((s.readers i).count block answer).fates = (s.readers i).fates := by
      unfold Reader.count
      split <;> exact ⟨rfl, rfl, rfl⟩
    exact h.setReader ((h.readers i).count hpc) hframe.1 hframe.2.2 (fun hp => absurd hp hactive)
      fun hnot => hframe.2.1.trans (h.untold i hnot)
  · cases hstep

theorem Invariant.answered {s : Readout n} (h : Invariant s) {i : Fin n} {block : RawBlock}
    {answer : Bool} {q : BlockQueue (Fin n × RawBlock)} (hpc : (s.readers i).pc = .pushing block)
    (hwrite : (s.readers i).write ≠ false) (hactive : ¬Passed i s.stopPc)
    (hclosed : q.closed = s.queue.closed)
    (hitems : q.items = s.queue.items ++ if answer then [(i, block)] else [])
    (hopen : answer = true → s.queue.closed = false) :
    Invariant { s.setReader i { s.readers i with
      pc := .counting block answer, fates := (s.readers i).fates ++ [(block, answer)] } with
      queue := q } := by
  have hpipeline : ∀ j, ofBoard j (s.written ++ held s.writerPc ++ q.items) =
      ofBoard j (Delivery.pipeline s) ++ if answer = true ∧ j = i then [block] else [] := by
    intro j
    rw [hitems, ← List.append_assoc, ofBoard_append]
    congr 1
    cases answer with
    | false => rfl
    | true =>
      by_cases hj : j = i
      · simp [ofBoard, hj]
      · simp [ofBoard, hj, Ne.symm hj]
  refine ⟨?_, ?_, ?_, ?_, ?_, h.accepted, ?_, h.stored⟩
  · exact forall_update (fun _ => Counted) ((h.readers i).answered hpc answer)
      fun j _ => h.readers j
  · exact forall_update (fun j r => Passed j s.stopPc → r.pc = .returned)
      (fun hp => absurd hp hactive) fun j _ => h.passed j
  · exact forall_update (fun j r => ¬Told j s.stopPc → r.running = true) (h.untold i)
      fun j _ => h.untold j
  · refine forall_update (fun j r => Delivery.accepted r =
      ofBoard j (s.written ++ held s.writerPc ++ q.items)) ?_ ?_
    · rw [hpipeline, ← h.pipeline i]
      cases answer <;> simp [Delivery.accepted, List.filter_append]
    · intro j hj
      rw [hpipeline, if_neg fun hand => hj hand.2, List.append_nil]
      exact h.pipeline j
  · intro hreturned
    obtain ⟨hnone, hends⟩ := h.returned hreturned
    have hrefused : answer = false := by
      by_contra hyes
      rcases hends with hends | hends
      · exact absurd ((hopen (eq_true_of_ne_false hyes)).symm.trans hends) Bool.false_ne_true
      · exact hwrite (hends i)
    refine ⟨by rw [hitems, hnone, hrefused]; rfl, ?_⟩
    refine hends.imp hclosed.trans fun hall => ?_
    exact absurd (hall i) hwrite
  · exact fun hstop => (h.writer hstop).imp_right fun hno => absurd (hno.readers i) hwrite

theorem push_invariant {s s' : Readout n} (h : Invariant s) {i : Fin n} {timedOut : Bool}
    (hstep : s.push i timedOut = some s') : Invariant s' := by
  unfold Readout.push at hstep
  dsimp only at hstep
  split at hstep
  · next block hpc =>
    obtain ⟨hclosed, hcases⟩ :=
      BlockQueue.push_cases (fun b => b.2.length) timedOut (i, block) s.queue
    generalize s.queue.push (fun b => b.2.length) timedOut (i, block) = p at hstep hclosed hcases
    split at hstep
    · cases hstep
      exact h
    · next answer hanswer =>
      cases hstep
      have hwrite : (s.readers i).write ≠ false := by
        intro hno
        have hhand := ((h.readers i).silent hno).2
        rw [hpc] at hhand
        exact absurd hhand (List.cons_ne_nil _ _)
      have hactive := h.not_passed (i := i) (by simp [hpc])
      have hitems : p.2.items = s.queue.items ++ if answer then [(i, block)] else [] := by
        rcases hcases with ⟨hyes, _, hitems⟩ | ⟨hno, hitems⟩
        · obtain rfl : answer = true := Option.some.inj (hanswer.symm.trans hyes)
          exact hitems
        · have hfalse : answer = false := by
            cases answer with
            | true => exact absurd hanswer hno
            | false => rfl
          rw [hfalse, if_neg Bool.false_ne_true, List.append_nil]
          exact hitems
      exact h.answered hpc hwrite hactive hclosed hitems (fun hyes => by
        rcases hcases with ⟨_, hopen, _⟩ | ⟨hno, _⟩
        · exact hopen
        · exact absurd (hanswer.trans (congrArg some hyes)) hno)
  · cases hstep

theorem pop_invariant {s s' : Readout n} (h : Invariant s) (hstep : s.pop = some s') :
    Invariant s' := by
  unfold Readout.pop at hstep
  split at hstep
  · next hpopping =>
    obtain ⟨⟨block, q⟩, hpop, rfl⟩ := Option.map_eq_some_iff.mp hstep
    obtain ⟨hitems, _⟩ := BlockQueue.pop_some hpop
    obtain ⟨hrunning, hloop⟩ := h.writer_busy (by simp [hpopping])
    refine ⟨h.readers, h.passed, h.untold, ?_, nofun, h.accepted, fun _ => .inl hloop,
      fun hstop => absurd hstop hrunning⟩
    intro i
    rw [h.pipeline i]
    simp [pipeline, held, hpopping, hitems]
  · cases hstep

theorem turn_fine {t : Turn} (h : t.Fine) (block : Option RawBlock) :
    Turn.Fine { t with block := block } := ⟨h.writing, h.flush⟩

/-- The writer puts the block it holds behind those it has written. -/
theorem write_invariant {s s' : Readout n} (h : Invariant s) {t : Turn} (ht : t.Fine)
    (hstep : s.write cfg t = some s') : Invariant s' := by
  unfold Readout.write at hstep
  split at hstep
  · next block hholding =>
    obtain ⟨hrunning, hloop⟩ := h.writer_busy (by simp [hholding])
    obtain ⟨hflawless, haccepted⟩ := WriterLoop.turn_flawless cfg hloop
      (turn_fine ht (some block.2))
    cases hstep
    simp only [hflawless.writerFailed, Bool.false_eq_true, if_false]
    refine ⟨h.readers, h.passed, h.untold, ?_, nofun, ?_, fun _ => .inl hflawless,
      fun hstop => absurd hstop hrunning⟩
    · intro i
      rw [h.pipeline i]
      simp [pipeline, held, hholding]
    · rw [haccepted, h.accepted, List.map_append]
      rfl
  · cases hstep

theorem idle_invariant {s s' : Readout n} (h : Invariant s) {t : Turn} (ht : t.Fine)
    (hstep : s.idle cfg t = some s') : Invariant s' := by
  unfold Readout.idle at hstep
  split at hstep
  · next hidle =>
    obtain ⟨hrunning, hloop⟩ := h.writer_busy (by simp [hidle.1])
    obtain ⟨hflawless, haccepted⟩ := WriterLoop.turn_flawless cfg hloop (turn_fine ht none)
    cases hstep
    refine ⟨h.readers, h.passed, h.untold, h.pipeline, h.returned, ?_, fun _ => .inl hflawless,
      fun hstop => absurd hstop hrunning⟩
    rw [haccepted, h.accepted]
    exact List.append_nil _
  · cases hstep

theorem writerReturn_invariant {s s' : Readout n} (h : Invariant s)
    (hstep : s.writerReturn = some s') : Invariant s' := by
  unfold Readout.writerReturn at hstep
  split at hstep
  · next hready =>
    have hdrained := hready.2
    simp only [BlockQueue.drained, Bool.and_eq_true, List.isEmpty_iff] at hdrained
    obtain ⟨hrunning, hloop⟩ := h.writer_busy (by simp [hready.1])
    cases hstep
    refine ⟨h.readers, h.passed, h.untold, ?_, fun _ => ⟨hdrained.2, .inl hdrained.1⟩, h.accepted,
      fun _ => .inl hloop, fun hstop => absurd hstop hrunning⟩
    intro i
    rw [h.pipeline i]
    simp [pipeline, held, hready.1]
  · cases hstep

theorem stop_invariant {s s' : Readout n} (h : Invariant s) (hstep : s.stop = some s') :
    Invariant s' := by
  unfold Readout.stop at hstep
  split at hstep
  · next hpc =>
    cases hstep
    refine h.setStopPc (fun i hi => absurd hi (Nat.not_lt_zero _)) ?_ (by simp [hpc]) nofun
    intro i _
    exact h.untold i (by simp [Told, hpc])
  · cases hstep

theorem stopBoard_invariant {s s' : Readout n} (h : Invariant s) (hstep : s.stopBoard = some s') :
    Invariant s' := by
  unfold Readout.stopBoard at hstep
  split at hstep
  · next i hpc =>
    have hrunning : s.stopPc ≠ .stopped := by simp [hpc]
    have hpassed := h.passed
    have huntold := h.untold
    rw [hpc] at hpassed huntold
    split at hstep
    · next hi =>
      dsimp only at hstep
      rw [if_pos (huntold ⟨i, hi⟩ (Nat.lt_irrefl i))] at hstep
      cases hstep
      have hnext : Invariant { s with stopPc := .joining i } := h.setStopPc hpassed
        (fun j hj => huntold j fun hlt => hj (Nat.le_of_lt hlt)) hrunning nofun
      have hcounted := h.readers ⟨i, hi⟩
      exact hnext.setReader
        ⟨hcounted.buffersRead, hcounted.bytesRead, hcounted.blocks, hcounted.silent,
          hcounted.bytesWritten, hcounted.blocksDropped⟩
        rfl rfl (hpassed ⟨i, hi⟩) fun hnot => absurd (Nat.le_refl i) hnot
    · next hi =>
      cases hstep
      have hall : ∀ j : Fin n, (s.readers j).pc = .returned := fun j =>
        hpassed j (Nat.lt_of_lt_of_le j.isLt (Nat.le_of_not_lt hi))
      exact ⟨h.readers, fun j _ => hall j, fun j hnot => absurd trivial hnot, h.pipeline,
        fun hreturned => ⟨(h.returned hreturned).1, .inl rfl⟩, h.accepted,
        fun _ => (h.writer hrunning).imp_right fun hno => ⟨hno.writerPc, hno.readers, hno.loop⟩,
        nofun⟩
  · cases hstep

theorem join_invariant {s s' : Readout n} (h : Invariant s) (hstep : s.join = some s') :
    Invariant s' := by
  unfold Readout.join at hstep
  split at hstep
  · next i hpc =>
    have hpassed := h.passed
    have huntold := h.untold
    rw [hpc] at hpassed huntold
    split at hstep
    · next hi =>
      dsimp only at hstep
      split at hstep
      · next hreturned =>
        cases hstep
        have hnext : Invariant { s with stopPc := .draining i 0 } :=
          h.setStopPc hpassed huntold (by simp [hpc]) nofun
        exact hnext.setReader ((h.readers ⟨i, hi⟩).move (hreturned ▸ idle_returned) idle_checking _ _)
          rfl rfl (fun hp => absurd hp (Nat.lt_irrefl i)) (huntold ⟨i, hi⟩)
      · cases hstep
    · cases hstep
  · cases hstep

theorem drainCheck_invariant {s s' : Readout n} (h : Invariant s) {late : Bool}
    (hstep : s.drainCheck late = some s') : Invariant s' := by
  unfold Readout.drainCheck at hstep
  split at hstep
  · next i reads hpc =>
    have hpassed := h.passed
    have huntold := h.untold
    rw [hpc] at hpassed huntold
    split at hstep
    · next hi =>
      dsimp only at hstep
      split at hstep
      · next hchecking =>
        have hidle : Idle (s.readers ⟨i, hi⟩).pc := hchecking ▸ idle_checking
        split at hstep
        · cases hstep
          have hnext : Invariant { s with stopPc := .draining i (reads + 1) } :=
            h.setStopPc hpassed huntold (by simp [hpc]) nofun
          exact hnext.setReader ((h.readers ⟨i, hi⟩).move hidle idle_reading _ _) rfl rfl
            (fun hp => absurd hp (Nat.lt_irrefl i)) (huntold ⟨i, hi⟩)
        · cases hstep
          exact h.setReader ((h.readers ⟨i, hi⟩).move hidle idle_returned _ _) rfl rfl
            (fun _ => rfl) (h.untold ⟨i, hi⟩)
      · cases hstep
    · cases hstep
  · cases hstep

theorem release_invariant {s s' : Readout n} (h : Invariant s) (hstep : s.release = some s') :
    Invariant s' := by
  unfold Readout.release at hstep
  split at hstep
  · next i reads hpc =>
    have hpassed := h.passed
    have huntold := h.untold
    rw [hpc] at hpassed huntold
    split at hstep
    · next hi =>
      split at hstep
      · next hreturned =>
        cases hstep
        refine h.setStopPc ?_ ?_ (by simp [hpc]) nofun
        · intro j hj
          rcases Nat.lt_succ_iff_lt_or_eq.mp hj with hlt | heq
          · exact hpassed j hlt
          · obtain rfl : j = ⟨i, hi⟩ := Fin.ext heq
            exact hreturned
        · exact fun j hj => huntold j fun hle => hj (Nat.lt_succ_of_le hle)
      · cases hstep
    · cases hstep
  · cases hstep

theorem joinWriter_invariant {s s' : Readout n} (h : Invariant s) {flush close : Transfer}
    (hclose : close.ok = true) (hstep : s.joinWriter flush close = some s') : Invariant s' := by
  unfold Readout.joinWriter at hstep
  split at hstep
  · next hready =>
    cases hstep
    have hpassed := h.passed
    rw [hready.1] at hpassed
    refine ⟨h.readers, fun i _ => hpassed i trivial, fun i hnot => absurd trivial hnot, h.pipeline,
      h.returned, h.accepted, fun hstop => absurd rfl hstop, fun _ => ⟨hready.2, ?_⟩⟩
    rcases h.writer (by simp [hready.1]) with hloop | hno
    · obtain ⟨hpayload, htotal⟩ := WriterLoop.teardown_flawless hloop flush hclose
      exact ⟨hpayload, htotal⟩
    · simp only [hno.loop]
      exact ⟨rfl, rfl⟩
  · cases hstep

def Fine : Action n → Prop
  | .write turn => turn.Fine
  | .idle turn => turn.Fine
  | .joinWriter _ close => close.ok = true
  | _ => True

theorem step_invariant {s s' : Readout n} {a : Action n} (h : Invariant s) (ha : Fine a)
    (hstep : s.step cfg a = some s') : Invariant s' := by
  cases a with
  | check i => exact check_invariant h hstep
  | read i answer => exact read_invariant h hstep
  | push i timedOut => exact push_invariant h hstep
  | count i => exact count_invariant h hstep
  | pop => exact pop_invariant h hstep
  | write turn => exact write_invariant h ha hstep
  | idle turn => exact idle_invariant h ha hstep
  | writerReturn => exact writerReturn_invariant h hstep
  | stop => exact stop_invariant h hstep
  | stopBoard => exact stopBoard_invariant h hstep
  | join => exact join_invariant h hstep
  | drainCheck late => exact drainCheck_invariant h hstep
  | release => exact release_invariant h hstep
  | joinWriter flush close => exact joinWriter_invariant h ha hstep

theorem ofDaq_invariant {d : Daq} (h : Recording.Accounts cfg d 1) (hrunning : d.running = true) :
    Invariant (ofDaq d) := by
  have hopen : d.writeQueue.closed = false := by
    have hclosed := h.closed
    rw [hrunning, if_pos rfl] at hclosed
    exact eq_false_of_ne_true fun hc => absurd (hclosed.mp hc) (Nat.lt_irrefl 1)
  have hheld : held (ofDaq d).writerPc = [] := by
    show held (if d.draining then WriterPc.popping else WriterPc.returned) = []
    split <;> rfl
  have hwrites : d.anyWrite = false → ∀ i, ((ofDaq d).readers i).write = false := by
    intro hnone i
    rw [h.anyWrite, List.any_eq_false] at hnone
    have hi := hnone d.runners[i].write (List.mem_map_of_mem (List.getElem_mem _))
    exact eq_false_of_ne_true hi
  refine ⟨fun i => ⟨rfl, rfl, fun _ => rfl, fun _ => ⟨rfl, rfl⟩, rfl, rfl⟩, fun i hp => absurd hp id,
    fun i _ => h.boards hrunning _ (List.getElem_mem _), ?_, ?_, rfl, ?_, ?_⟩
  · intro i
    rw [pipeline, hheld]
    rfl
  · intro hreturned
    refine ⟨rfl, .inr (hwrites ?_)⟩
    by_contra hany
    have hdraining := h.draining hrunning (eq_true_of_ne_false hany)
    have hpc : (ofDaq d).writerPc = .popping := by
      show (if d.draining then WriterPc.popping else WriterPc.returned) = _
      rw [hdraining, hopen]
      rfl
    cases hreturned.symm.trans hpc
  · intro _
    cases hany : d.anyWrite with
    | true =>
      obtain ⟨o, hok, hwriter⟩ := h.writer (h.prepared hrunning) hany hopen
      have hloop : (ofDaq d).loop = WriterLoop.begun cfg o := by
        simp [ofDaq, WriterLoop.begun, hwriter, h.writerFailed]
      rw [hloop]
      exact .inl (WriterLoop.begun_flawless hok)
    | false =>
      obtain ⟨hwriter, hdraining⟩ := h.silent hany
      refine .inr ⟨?_, hwrites hany, ?_⟩
      · simp [ofDaq, hdraining]
      · simp [ofDaq, hwriter, h.writerFailed]
  · intro hstop
    cases hstop

theorem flatten_length_split (fates : List (RawBlock × Bool)) :
    (fates.map (·.1)).flatten.length = ((fates.filter (·.2)).map (·.1)).flatten.length +
      ((fates.filter (!·.2)).map (·.1)).flatten.length := by
  induction fates with
  | nil => rfl
  | cons f fates ih =>
    obtain ⟨block, answer⟩ := f
    cases answer with
    | true => simp [ih, Nat.add_assoc]
    | false =>
      simp [ih]
      omega

theorem sum_ofBoard (blocks : List (Fin n × RawBlock)) :
    ∑ i, (ofBoard i blocks).flatten.length = (blocks.map (·.2)).flatten.length := by
  induction blocks with
  | nil => simp [ofBoard]
  | cons b blocks ih =>
    have hcons : ∀ i, (ofBoard i (b :: blocks)).flatten.length =
        (if b.1 = i then b.2.length else 0) + (ofBoard i blocks).flatten.length := by
      intro i
      by_cases hi : b.1 = i
      · simp [ofBoard, hi]
      · simp [ofBoard, hi]
    rw [Finset.sum_congr rfl fun i _ => hcons i, Finset.sum_add_distrib, ih]
    simp

/-- What became of the blocks of a run: the part files hold a merge of those that were
accepted, every other one was counted as dropped, and the byte counters agree. -/
structure Delivered (s : Readout n) : Prop where
  payload : s.loop.writer.payload = (s.written.map (·.2)).flatten
  merged : ∀ i, ofBoard i s.written = accepted (s.readers i)
  resolved : ∀ i, (s.readers i).write = true →
    (s.readers i).fates.map (·.1) = (s.readers i).blocks
  blocksDropped : ∀ i, (s.readers i).blocksDropped = (dropped (s.readers i)).length
  totalBytes : ∑ i, (s.readers i).bytesWritten = s.loop.writer.totalBytes
  bytes : ∀ i, (s.readers i).write = true →
    (s.readers i).bytesRead = (s.readers i).bytesWritten + (dropped (s.readers i)).flatten.length

theorem stopped_delivered {s : Readout n} (h : Invariant s) (hstop : s.stopPc = .stopped) :
    Delivered s := by
  obtain ⟨hreturned, hstored⟩ := h.stored hstop
  have hpc : ∀ i, (s.readers i).pc = .returned := fun i => h.passed i (by rw [hstop]; trivial)
  have hpipeline : pipeline s = s.written := by
    rw [pipeline, hreturned, (h.returned hreturned).1]
    simp [held]
  have hmerged : ∀ i, ofBoard i s.written = accepted (s.readers i) := by
    intro i
    rw [h.pipeline i, hpipeline]
  have hresolved : ∀ i, (s.readers i).write = true →
      (s.readers i).fates.map (·.1) = (s.readers i).blocks := by
    intro i hwrite
    rw [(h.readers i).blocks hwrite, hpc i]
    exact (List.append_nil _).symm
  have hbytes : ∀ i, (s.readers i).bytesWritten = (accepted (s.readers i)).flatten.length := by
    intro i
    rw [← (h.readers i).bytesWritten, hpc i]
    rfl
  refine ⟨?_, hmerged, hresolved, ?_, ?_, ?_⟩
  · rw [hstored.payload, h.accepted]
  · intro i
    rw [← (h.readers i).blocksDropped, hpc i]
    rfl
  · rw [Finset.sum_congr rfl fun i _ => (hbytes i).trans (by rw [← hmerged i]), sum_ofBoard,
      hstored.totalBytes, h.accepted]
  · intro i hwrite
    rw [(h.readers i).bytesRead, ← hresolved i hwrite, hbytes i]
    exact flatten_length_split _

/-- In every first run, whatever the schedule, and if the file system does not fail, all
that was read is accounted for once the run is stopped. -/
theorem first_run_delivered {before : List Daq.Call} {o : Launches}
    (hok : ((Daq.history cfg {} before).start cfg o).1 = true)
    (hfirst : Daq.launches cfg {} (before ++ [.start o]) = 1)
    {schedule : List (Action _)} (hfine : ∀ a ∈ schedule, Fine a) {s : Readout _}
    (hrun : Transition.run (step cfg) (ofDaq (Daq.history cfg {} (before ++ [.start o]))) schedule =
      some s) (hstop : s.stopPc = .stopped) : Delivered s := by
  have haccounts := Recording.history_accounts cfg Recording.accounts_new
    (before ++ [.start o])
  rw [Nat.zero_add, hfirst] at haccounts
  exact stopped_delivered (Transition.run_invariant
    (fun _ _ a ha hinv hstep => step_invariant hinv (hfine a ha) hstep)
    (ofDaq_invariant haccounts (Recording.started_running hok)) hrun) hstop

def twoBoards : List Daq.Call := [.addBoard {}, .addBoard {}]

/-- A schedule in which the second board is ahead at the queue, the first has a block
left when it is stopped, and the writer is behind. -/
def twoBoardSchedule : List (Action (Daq.history {} {} (twoBoards ++ [.start {}])).runners.length) :=
  let a : Fin (Daq.history {} {} (twoBoards ++ [.start {}])).runners.length := ⟨0, by decide⟩
  let b : Fin (Daq.history {} {} (twoBoards ++ [.start {}])).runners.length := ⟨1, by decide⟩
  [.check a, .check b, .read a (some [1]), .read b (some [2]), .push b false, .push a false,
    .count a, .count b, .pop, .write {}, .stop, .stopBoard, .check a, .join, .drainCheck false,
    .read a (some [3]), .push a false, .count a, .drainCheck false, .read a none, .release,
    .stopBoard, .check b, .join, .drainCheck true, .release, .stopBoard, .pop, .write {}, .pop,
    .write {}, .writerReturn, .joinWriter {} {}]

theorem first_run_delivered_two : ∃ s : Readout _,
    Transition.run (step {}) (ofDaq (Daq.history {} {} (twoBoards ++ [.start {}])))
      twoBoardSchedule = some s ∧ s.stopPc = .stopped ∧ Delivered s := by
  have hmap : (Transition.run (step {}) (ofDaq (Daq.history {} {} (twoBoards ++ [.start {}])))
      twoBoardSchedule).map (·.stopPc) = some .stopped := by decide +kernel
  obtain ⟨s, hrun, hstop⟩ := Option.map_eq_some_iff.mp hmap
  have hfine : ∀ a ∈ twoBoardSchedule, Fine a := by
    have hwriting : Turn.Fine {} := ⟨⟨⟨rfl, rfl, rfl, rfl⟩, rfl⟩, rfl⟩
    simp [twoBoardSchedule, Fine, hwriting]
  exact ⟨s, hrun, hstop, @first_run_delivered {} twoBoards {} (by decide +kernel)
    (by decide +kernel) twoBoardSchedule hfine s hrun hstop⟩

end Delivery
end CaenDaq
