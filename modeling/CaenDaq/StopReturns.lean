import CaenDaq.Fairness
import CaenDaq.TapAccounts
import Mathlib.Data.Prod.Lex

/-!
# The stop returns

`Daq::stop` waits for readers, for the decode stages and for the writer. Whatever the boards,
the file system and the other threads do meanwhile, it gets to its end, if only no thread
that could go on stands still for ever. The stop is followed from the point where the
statistics thread has been joined.
-/

namespace CaenDaq
namespace StopReturns

open Readout Transition Delivery StopOrder Tapped OnlineSpectra Fairness
open FileDecode (pair pairConfig pairDaq)

variable {n : ℕ} {cfg : WriterConfig} {binning : Binning}

/-- The threads of a readout. A board is read by its reader or, while it is drained, by the
stopping thread in its place. -/
inductive Agent (n : ℕ)
  | reader (i : Fin n)
  | stage (i : Fin n)
  | writer
  | stopper
  deriving DecidableEq

/-- Whose a step is. A push that goes on waiting is no step forward, and no one has to wait
for an idle round of the writer, a call from outside or the call of `stop`. -/
def mover : TapAction n → Option (Agent n)
  | .base (.check i) | .base (.read i _) | .base (.push i true) | .base (.count i)
  | .submit i => some (.reader i)
  | .pop i | .ask i | .decode i | .append i | .leave i => some (.stage i)
  | .base .pop | .base (.write _) | .base .writerReturn => some .writer
  | .base .stopBoard | .base .join | .base (.drainCheck _) | .base .release
  | .base (.joinWriter _ _) | .close _ => some .stopper
  | .base (.push _ false) | .base (.idle _) | .base .stop | .call _ _ => none

def Moves (g : Agent n) (b : TapAction n) : Prop := mover b = some g

abbrev Rank := ℕ ×ₗ ℕ ×ₗ ℕ

def rankOf (phase reads stage : ℕ) : Rank := toLex (phase, toLex (reads, stage))

variable {a b c a' b' c' : ℕ}

theorem rankOf_phase (h : a' < a) : rankOf a' b' c' < rankOf a b c :=
  Prod.Lex.toLex_lt_toLex.mpr (.inl h)

theorem rankOf_reads (h : b' < b) : rankOf a b' c' < rankOf a b c :=
  Prod.Lex.toLex_lt_toLex.mpr (.inr ⟨rfl, Prod.Lex.toLex_lt_toLex.mpr (.inl h)⟩)

theorem rankOf_stage (h : c' < c) : rankOf a b c' < rankOf a b c :=
  Prod.Lex.toLex_lt_toLex.mpr (.inr ⟨rfl, Prod.Lex.toLex_lt_toLex.mpr (.inr ⟨rfl, h⟩)⟩)

/-- The steps of a reader to the head of its loop, one more if a block has to be handed to
the stage there. -/
def readerRank (pending : Bool) : ReaderPc → ℕ
  | .returned => 0
  | .checking => if pending then 2 else 1
  | .counting _ _ => 3
  | .pushing _ => 4
  | .reading => 5

def readerLeft (s : Tapped n) (i : Fin n) : ℕ :=
  readerRank (s.submitting i).isSome (s.base.readers i).pc

def tapLeft : Option DecodeTap → ℕ
  | none => 0
  | some t => if t.running then left t + 1 else left t

def stageLeft (s : Tapped n) (i : Fin n) : ℕ :=
  if (s.base.readers i).pc = .returned then tapLeft (s.taps i) else 0

def writerRank : WriterPc n → ℕ
  | .returned => 0
  | .popping => 1
  | .holding _ => 2

def rank (s : Tapped n) : Rank :=
  match s.base.stopPc with
  | .notCalled => rankOf (3 * n + 3) 0 0
  | .stopping i => rankOf (3 * (n - i) + 2) 0 0
  | .joining i =>
    if h : i < n then rankOf (3 * (n - i) + 1) (readerLeft s ⟨i, h⟩) 0 else rankOf 0 0 0
  | .draining i reads =>
    if h : i < n then
      rankOf (3 * (n - i)) (6 * (kMaxReads - reads) + readerLeft s ⟨i, h⟩) (stageLeft s ⟨i, h⟩)
    else rankOf 0 0 0
  | .joiningWriter => rankOf 1 (3 * s.base.queue.items.length + writerRank s.base.writerPc) 0
  | .stopped => rankOf 0 0 0

/-- Who has to move for the stop to go on. -/
def readerHelper (s : Tapped n) (i : Fin n) : Agent n :=
  if (s.base.readers i).pc = .returned then .stopper else .reader i

def tapHelper (i : Fin n) : Option DecodeTap → Agent n
  | none => .stopper
  | some t => if t.running = false ∧ t.pc ≠ .returned then .stage i else .stopper

def drainHelper (s : Tapped n) (i : Fin n) : Agent n :=
  match (s.base.readers i).pc with
  | .returned => tapHelper i (s.taps i)
  | .checking => if (s.submitting i).isSome then .reader i else .stopper
  | _ => .reader i

def helper (s : Tapped n) : Agent n :=
  match s.base.stopPc with
  | .joining i => if h : i < n then readerHelper s ⟨i, h⟩ else .stopper
  | .draining i _ => if h : i < n then drainHelper s ⟨i, h⟩ else .stopper
  | .joiningWriter => if s.base.writerPc = .returned then .stopper else .writer
  | _ => .stopper

section

variable {s : Tapped n} {i : Fin n} {reads : ℕ}

theorem rank_joining (h : s.base.stopPc = .joining i) :
    rank s = rankOf (3 * (n - i) + 1) (readerLeft s i) 0 := by
  simp only [rank, h, i.isLt, dif_pos]

theorem rank_draining (h : s.base.stopPc = .draining i reads) : rank s =
    rankOf (3 * (n - i)) (6 * (kMaxReads - reads) + readerLeft s i) (stageLeft s i) := by
  simp only [rank, h, i.isLt, dif_pos]

theorem helper_joining (h : s.base.stopPc = .joining i) : helper s = readerHelper s i := by
  simp only [helper, h, i.isLt, dif_pos]

theorem helper_draining (h : s.base.stopPc = .draining i reads) : helper s = drainHelper s i := by
  simp only [helper, h, i.isLt, dif_pos]

end

def shown (t : DecodeTap) : Bool × TapPc × ℕ := (t.running, t.pc, t.queue.items.length)

theorem tap_same {u v : Option DecodeTap} (h : u.map shown = v.map shown) :
    tapLeft u = tapLeft v ∧ ∀ i : Fin n, tapHelper i u = tapHelper i v := by
  cases u with
  | none =>
    cases v with
    | none => exact ⟨rfl, fun _ => rfl⟩
    | some t => cases h
  | some t =>
    cases v with
    | none => cases h
    | some t' =>
      simp only [Option.map_some, shown, Option.some.injEq, Prod.mk.injEq] at h
      obtain ⟨hrunning, hpc, hitems⟩ := h
      simp only [tapLeft, tapHelper, left, hrunning, hpc, hitems, implies_true, and_self]

def At (s : Readout n) (i : Fin n) : Prop :=
  s.stopPc = .joining i ∨ ∃ reads, s.stopPc = .draining i reads

/-- The stage that the stopping thread has to stop next. -/
def Closing (s : Readout n) (i : Fin n) : Prop :=
  (∃ reads, s.stopPc = .draining i reads) ∧ (s.readers i).pc = .returned

theorem rank_same {s s' : Tapped n} (hstanding : Standing s.base)
    (hstop : s'.base.stopPc = s.base.stopPc)
    (hboard : ∀ i, At s.base i → (s'.base.readers i).pc = (s.base.readers i).pc ∧
      s'.submitting i = s.submitting i)
    (hstage : ∀ i, Closing s.base i → (s'.taps i).map shown = (s.taps i).map shown)
    (hwriter : s.base.stopPc = .joiningWriter → s'.base.queue.items = s.base.queue.items ∧
      s'.base.writerPc = s.base.writerPc) : rank s' = rank s ∧ helper s' = helper s := by
  cases hat : s.base.stopPc with
  | joining j =>
    obtain ⟨i, rfl, _⟩ := hstanding.joining j hat
    obtain ⟨hpc, hsubmitting⟩ := hboard i (.inl hat)
    rw [rank_joining hat, helper_joining hat, rank_joining (hstop.trans hat),
      helper_joining (hstop.trans hat)]
    simp only [readerLeft, readerHelper, hpc, hsubmitting, and_self]
  | draining j reads =>
    obtain ⟨i, rfl⟩ : ∃ i : Fin n, j = i := ⟨⟨j, hstanding.draining j reads hat⟩, rfl⟩
    obtain ⟨hpc, hsubmitting⟩ := hboard i (.inr ⟨reads, hat⟩)
    rw [rank_draining hat, helper_draining hat, rank_draining (hstop.trans hat),
      helper_draining (hstop.trans hat)]
    by_cases hreturned : (s.base.readers i).pc = .returned
    · obtain ⟨hleft, hhelper⟩ := tap_same (n := n) (hstage i ⟨⟨reads, hat⟩, hreturned⟩)
      simp only [readerLeft, stageLeft, drainHelper, hpc, hsubmitting, hreturned, hleft, hhelper,
        and_self]
    · cases hnow : (s.base.readers i).pc with
      | returned => exact absurd hnow hreturned
      | _ => simp [readerLeft, stageLeft, drainHelper, hpc, hsubmitting, hnow]
  | joiningWriter =>
    obtain ⟨hitems, hpc⟩ := hwriter hat
    simp only [rank, helper, hstop, hat, hitems, hpc, and_self]
  | notCalled => simp only [rank, helper, hstop, hat, and_self]
  | stopping j => simp only [rank, helper, hstop, hat, and_self]
  | stopped => simp only [rank, helper, hstop, hat, and_self]

/-- Where the stop waits for an agent. -/
def Awaits (s : Tapped n) : Agent n → Prop
  | .reader i => At s.base i
  | .stage i => Closing s.base i
  | .writer => s.base.stopPc = .joiningWriter
  | .stopper => True

theorem helper_awaits {s : Tapped n} (hstanding : Standing s.base) {g : Agent n}
    (h : helper s = g) : Awaits s g := by
  rw [← h]
  cases hat : s.base.stopPc with
  | joining j =>
    obtain ⟨i, rfl, _⟩ := hstanding.joining j hat
    rw [helper_joining hat, readerHelper]
    split
    · trivial
    · exact .inl hat
  | draining j reads =>
    obtain ⟨i, rfl⟩ : ∃ i : Fin n, j = i := ⟨⟨j, hstanding.draining j reads hat⟩, rfl⟩
    rw [helper_draining hat, drainHelper]
    split
    · next hpc =>
      unfold tapHelper
      split
      · trivial
      · split
        · exact ⟨⟨reads, hat⟩, hpc⟩
        · trivial
    · split
      · exact .inr ⟨reads, hat⟩
      · trivial
    · exact .inr ⟨reads, hat⟩
  | joiningWriter =>
    simp only [helper, hat]
    split
    · trivial
    · exact hat
  | _ =>
    simp only [helper, hat]
    trivial

/-- A step brings the stop nearer to its end, or changes nothing for it and is not the one
that it waits for. -/
def Down (s s' : Tapped n) (b : TapAction n) : Prop :=
  rank s' < rank s ∨ (rank s' = rank s ∧ helper s' = helper s ∧ ¬Moves (helper s) b)

theorem reader_down {s s' : Tapped n} (hstanding : Standing s.base) {i : Fin n} {b : TapAction n}
    (hb : mover b = some (.reader i) ∨ mover b = none) (hstop : s'.base.stopPc = s.base.stopPc)
    (hothers : ∀ j, j ≠ i → (s'.base.readers j).pc = (s.base.readers j).pc ∧
      s'.submitting j = s.submitting j ∧ s'.taps j = s.taps j)
    (hbusy : (s.base.readers i).pc ≠ .returned)
    (hless : At s.base i → readerLeft s' i < readerLeft s i) : Down s s' b := by
  by_cases hat : At s.base i
  · have hleft := hless hat
    left
    rcases hat with hat | ⟨reads, hat⟩
    · rw [rank_joining hat, rank_joining (hstop.trans hat)]
      exact rankOf_reads hleft
    · rw [rank_draining hat, rank_draining (hstop.trans hat)]
      exact rankOf_reads (Nat.add_lt_add_left hleft _)
  · have hne : ∀ {j : Fin n}, At s.base j → j ≠ i := fun hj heq => hat (heq ▸ hj)
    obtain ⟨hrank, hhelper⟩ := rank_same hstanding hstop
      (fun j hj => ⟨(hothers j (hne hj)).1, (hothers j (hne hj)).2.1⟩)
      (fun j hj => by rw [(hothers j (hne (.inr hj.1))).2.2])
      fun hwriter => absurd (hstanding.passed i (by rw [hwriter]; trivial)) hbusy
    refine .inr ⟨hrank, hhelper, fun hmoves => ?_⟩
    rcases hb with hreader | hnone
    · exact hat (helper_awaits hstanding (Option.some.inj (hmoves.symm.trans hreader)))
    · cases hmoves.symm.trans hnone

theorem writer_down {s s' : Tapped n} (hstanding : Standing s.base) {b : TapAction n}
    (hb : mover b = some .writer) (hstop : s'.base.stopPc = s.base.stopPc)
    (hreaders : s'.base.readers = s.base.readers) (hsubmitting : s'.submitting = s.submitting)
    (htaps : s'.taps = s.taps)
    (hless : 3 * s'.base.queue.items.length + writerRank s'.base.writerPc <
      3 * s.base.queue.items.length + writerRank s.base.writerPc) : Down s s' b := by
  by_cases hat : s.base.stopPc = .joiningWriter
  · left
    simp only [rank, hstop, hat]
    exact rankOf_reads hless
  · obtain ⟨hrank, hhelper⟩ := rank_same hstanding hstop
      (fun i _ => ⟨by rw [hreaders], by rw [hsubmitting]⟩) (fun i _ => by rw [htaps])
      fun hwriter => absurd hwriter hat
    refine .inr ⟨hrank, hhelper, fun hmoves => hat ?_⟩
    exact helper_awaits hstanding (Option.some.inj (hmoves.symm.trans hb))

theorem readerLeft_setReader {s : Tapped n} {i : Fin n} {base : Readout n}
    {submitting : Fin n → Option RawBlock} {r : Reader} (hreaders : base.readers i = r) :
    readerLeft { s with base := base, submitting := submitting } i =
      readerRank (submitting i).isSome r.pc := by
  rw [← hreaders]
  rfl

theorem received_of_ne {s : Tapped n} {a : Action n} {i j : Fin n} (h : j ≠ i)
    (ha : ∀ k block, a = .read k (some block) → k = i) : s.received a j = s.submitting j := by
  refine received_other fun block heq => ?_
  exact absurd (ha j block heq) h

theorem readerRank_le {pc : ReaderPc} (h : pc ≠ .reading) (pending : Bool) :
    readerRank pending pc ≤ 4 := by
  cases pc with
  | reading => exact absurd rfl h
  | checking => cases pending <;> decide
  | pushing => exact Nat.le_refl 4
  | counting => exact Nat.le_succ 3
  | returned => exact Nat.zero_le 4

theorem base_reader_down {s : Tapped n} (hstanding : Standing s.base) {a : Action n} {i : Fin n}
    {b : Readout n} {r : Reader} (hb : mover (.base a) = some (.reader i) ∨ mover (.base a) = none)
    (hstop : b.stopPc = s.base.stopPc) (hreaders : b.readers = (s.base.setReader i r).readers)
    (ha : ∀ k block, a = .read k (some block) → k = i)
    (hbusy : (s.base.readers i).pc ≠ .returned)
    (hless : At s.base i → readerRank (s.received a i).isSome r.pc < readerLeft s i) :
    Down s { s with base := b, submitting := s.received a } (.base a) := by
  refine reader_down hstanding hb hstop (fun j hj => ⟨?_, received_of_ne hj ha, rfl⟩) hbusy
    fun hat => ?_
  · show (b.readers j).pc = _
    rw [hreaders, readers_setReader, if_neg hj]
  · rw [readerLeft_setReader (r := r)]
    · exact hless hat
    · rw [hreaders, readers_setReader, if_pos rfl]

theorem base_down {s : Tapped n} (hstanding : Standing s.base)
    (hcalled : s.base.stopPc ≠ .notCalled) {a : Action n} {base : Readout n}
    (hfree : s.blocked a = false) (hstep : s.base.step cfg a = some base) :
    base.stopPc = .stopped ∨
      Down s { s with base := base, submitting := s.received a } (.base a) := by
  have hbusy : ∀ {i : Fin n} {pc : ReaderPc}, (s.base.readers i).pc = pc → pc ≠ .returned →
      (s.base.readers i).pc ≠ .returned := fun hpc hne heq => hne (hpc.symm.trans heq)
  have hleft : ∀ {i : Fin n} {pc : ReaderPc}, (s.base.readers i).pc = pc →
      readerLeft s i = readerRank (s.submitting i).isSome pc := by
    intro i pc hpc
    rw [readerLeft, hpc]
  cases step_takes hstep with
  | check i hpc hactive =>
    refine .inr
      (base_reader_down hstanding (.inl rfl) rfl rfl (fun _ _ h => by cases h)
      (hbusy hpc ReaderPc.noConfusion) fun hat => ?_)
    have hnone : s.submitting i = none := blocked_waitsFor hfree rfl
    have hrunning : (s.base.readers i).running = false := by
      rcases hat with hat | ⟨reads, hat⟩
      · obtain ⟨j, hj, hrunning⟩ := hstanding.joining i hat
        rwa [Fin.ext hj]
      · rw [isDraining, hat] at hactive
        simp at hactive
    rw [hleft hpc, hrunning]
    simp [hnone, readerRank]
  | read i answer hpc =>
    refine .inr (base_reader_down hstanding (.inl rfl) rfl rfl ?_ (hbusy hpc ReaderPc.noConfusion) fun _ => ?_)
    · intro k block heq
      exact (Action.read.inj heq).1.symm
    · rw [hleft hpc]
      refine Nat.lt_succ_of_le (readerRank_le ?_ _)
      have heither := read_either (s.base.isDraining i) answer (s.base.readers i)
      rcases read_cases answer _ _ heither with
        ⟨_, _, hpc' | hpc'⟩ | ⟨block, _, _, hr⟩
      · rw [hpc']
        exact ReaderPc.noConfusion
      · rw [hpc']
        exact ReaderPc.noConfusion
      · rw [hr, Reader.dispatch]
        dsimp only
        split <;> exact ReaderPc.noConfusion
  | waited i timedOut block hpc hanswer =>
    refine .inr (.inr ⟨rfl, rfl, fun hmoves => ?_⟩)
    cases timedOut with
    | false => cases hmoves
    | true => exact BlockQueue.push_late (fun b => b.2.length) (i, block) s.base.queue hanswer
  | pushed i timedOut block accepted q hpc =>
    refine .inr (base_reader_down hstanding ?_ rfl rfl (fun _ _ h => by cases h)
      (hbusy hpc ReaderPc.noConfusion) fun _ => ?_)
    · cases timedOut with
      | false => exact .inr rfl
      | true => exact .inl rfl
    · rw [hleft hpc]
      exact Nat.lt_succ_self 3
  | count i block accepted hpc =>
    refine .inr (base_reader_down hstanding (.inl rfl) rfl rfl (fun _ _ h => by cases h)
      (hbusy hpc ReaderPc.noConfusion) fun _ => ?_)
    rw [hleft hpc, (count_kept block accepted (s.base.readers i)).2.2]
    show (if (s.submitting i).isSome = true then 2 else 1) < 3
    split <;> decide
  | pop block q hpc hpop =>
    refine .inr (writer_down hstanding rfl rfl rfl rfl rfl ?_)
    show 3 * q.items.length + 2 < 3 * s.base.queue.items.length + writerRank s.base.writerPc
    rw [(BlockQueue.pop_some hpop).1, List.length_cons, hpc]
    show _ < _ + 1
    omega
  | write turn block hpc =>
    refine .inr (writer_down hstanding rfl rfl rfl rfl rfl ?_)
    rw [hpc]
    refine Nat.add_lt_add_left ?_ _
    show writerRank (if _ then WriterPc.returned else WriterPc.popping) < 2
    split
    · exact Nat.zero_lt_two
    · exact Nat.one_lt_two
  | idle turn hpc hitems hopen =>
    let idled : Tapped n := { s with
      base := { s.base with loop := WriterLoop.turn cfg s.base.loop { turn with block := none } } }
    have hsame : rank idled = rank s ∧ helper idled = helper s :=
      rank_same hstanding rfl (fun _ _ => ⟨rfl, rfl⟩) (fun _ _ => rfl) fun _ => ⟨rfl, rfl⟩
    exact .inr (.inr ⟨hsame.1, hsame.2, fun hmoves => by cases hmoves⟩)
  | writerReturn hpc hitems =>
    refine .inr (writer_down hstanding rfl rfl rfl rfl rfl ?_)
    rw [hpc]
    exact Nat.lt_succ_self _
  | stop hpc => exact absurd hpc hcalled
  | stopBoard i hpc =>
    refine .inr (.inl ?_)
    rw [rank_joining (i := i) rfl]
    simp only [rank, hpc]
    exact rankOf_phase (Nat.lt_succ_self _)
  | skipBoard i hpc =>
    refine .inr (.inl ?_)
    simp only [rank, hpc]
    exact rankOf_phase (by omega)
  | closeQueue i hpc =>
    refine .inr (.inl ?_)
    simp only [rank, hpc]
    exact rankOf_phase (by omega)
  | join i hpc =>
    refine .inr (.inl ?_)
    rw [rank_draining (i := i) rfl, rank_joining hpc]
    exact rankOf_phase (Nat.lt_succ_self _)
  | drainMore i reads late hpc hchecking hmore =>
    refine .inr (.inl ?_)
    have hnone : s.submitting i = none := blocked_waitsFor hfree (waitsFor_draining hpc late)
    rw [rank_draining (i := i) rfl, rank_draining hpc, hleft hchecking, hnone]
    refine rankOf_reads ?_
    show 6 * (kMaxReads - (reads + 1)) +
      readerRank _ ((s.base.setReader i { s.base.readers i with pc := .reading }).readers i).pc <
        6 * (kMaxReads - reads) + 1
    rw [setReader_same]
    show 6 * (kMaxReads - (reads + 1)) + 5 < 6 * (kMaxReads - reads) + 1
    have hroom : kMaxReads - (reads + 1) + 1 = kMaxReads - reads := by omega
    omega
  | drainDone i reads late hpc hchecking =>
    refine .inr (.inl ?_)
    have hnone : s.submitting i = none := blocked_waitsFor hfree (waitsFor_draining hpc late)
    rw [rank_draining hpc, hleft hchecking, hnone]
    refine lt_of_eq_of_lt (rank_draining hpc) (rankOf_reads (Nat.add_lt_add_left ?_ _))
    rw [readerLeft_setReader (setReader_same s.base i _)]
    exact Nat.zero_lt_one
  | release i reads hpc =>
    refine .inr (.inl ?_)
    rw [rank_draining hpc]
    simp only [rank]
    exact rankOf_phase (by omega)
  | joinWriter => exact .inl rfl

theorem closing_down {s : Tapped n} {i : Fin n} (hclosing : Closing s.base i) {t t' : DecodeTap}
    (htap : s.taps i = some t) (hless : tapLeft (some t') < tapLeft (some t)) :
    rank (s.setTap i t') < rank s := by
  obtain ⟨⟨reads, hat⟩, hreturned⟩ := hclosing
  have hstage : stageLeft (s.setTap i t') i < stageLeft s i := by
    rw [stageLeft, stageLeft, setTap_same, htap]
    show (if (s.base.readers i).pc = .returned then _ else _) < _
    rw [if_pos hreturned, if_pos hreturned]
    exact hless
  rw [rank_draining hat]
  exact lt_of_eq_of_lt (rank_draining (i := i) hat) (rankOf_stage hstage)

theorem stage_down {s : Tapped n} (hstanding : Standing s.base) {i : Fin n} {t t' : DecodeTap}
    (htap : s.taps i = some t) {b : TapAction n} (hb : ∀ g, mover b = some g → g = .stage i)
    (ht : shown t' = shown t ∧ mover b = none ∨ tapLeft (some t') < tapLeft (some t)) :
    Down s (s.setTap i t') b := by
  have hsame : (Closing s.base i → shown t' = shown t) →
      rank (s.setTap i t') = rank s ∧ helper (s.setTap i t') = helper s := by
    intro hshown
    refine rank_same hstanding rfl (fun _ _ => ⟨rfl, rfl⟩) (fun j hj => ?_) fun _ => ⟨rfl, rfl⟩
    by_cases hji : j = i
    · subst hji
      rw [setTap_same, htap, Option.map_some, Option.map_some, hshown hj]
    · rw [setTap_other s t' hji]
  by_cases hclosing : Closing s.base i
  · rcases ht with ⟨hshown, hnone⟩ | hless
    · obtain ⟨hrank, hhelper⟩ := hsame fun _ => hshown
      exact .inr ⟨hrank, hhelper, fun hmoves => by cases hnone.symm.trans hmoves⟩
    · exact .inl (closing_down hclosing htap hless)
  · obtain ⟨hrank, hhelper⟩ := hsame fun hc => absurd hc hclosing
    refine .inr ⟨hrank, hhelper, fun hmoves => hclosing ?_⟩
    exact helper_awaits hstanding (hb _ hmoves)

theorem mover_thread {b : TapAction n} {i : Fin n} (h : threadOf b = some i) :
    mover b = some (.stage i) := by
  cases b with
  | pop => cases h; rfl
  | ask => cases h; rfl
  | decode => cases h; rfl
  | append => cases h; rfl
  | leave => cases h; rfl
  | base => cases h
  | submit => cases h
  | close => cases h
  | call => cases h

theorem step_down {s s' : Tapped n} (hstanding : Standing s.base)
    (hcalled : s.base.stopPc ≠ .notCalled) {b : TapAction n}
    (hstep : s.step cfg binning b = some s') : s'.base.stopPc = .stopped ∨ Down s s' b := by
  cases step_happens hstep with
  | base a base hfree hbase => exact base_down hstanding hcalled hfree hbase
  | submit i block t hsubmitting htap hpc =>
    refine .inr (reader_down hstanding (.inl rfl) rfl (fun j hj => ⟨rfl, ?_, ?_⟩) ?_ fun _ => ?_)
    · exact Function.update_of_ne hj _ _
    · exact setTap_other s _ hj
    · rw [hpc]
      exact ReaderPc.noConfusion
    · show readerRank (Function.update s.submitting i none i).isSome (s.base.readers i).pc <
        readerRank (s.submitting i).isSome (s.base.readers i).pc
      rw [Function.update_self, hsubmitting, hpc]
      exact Nat.one_lt_two
  | works b i t t' hthread htap hworks =>
    refine .inr (stage_down hstanding htap (fun g hg => ?_) (.inr ?_))
    · exact (Option.some.inj ((mover_thread hthread).symm.trans hg)).symm
    · simp only [tapLeft, (works_flags hworks).1]
      split
      · exact Nat.succ_lt_succ (works_left hworks)
      · exact works_left hworks
  | call i c t houtside htap =>
    exact .inr (stage_down hstanding htap (fun _ hg => by cases hg) (.inl ⟨rfl, rfl⟩))
  | close i t hdraining hreturned htap hrunning =>
    refine .inr (.inl (closing_down ⟨isDraining_iff.mp hdraining, hreturned⟩ htap ?_))
    simp only [tapLeft, hrunning, if_true]
    exact Nat.lt_succ_self _

theorem base_ready {s : Tapped n} {a : Action n} (hfree : s.blocked a = false)
    (hstep : (s.base.step cfg a).isSome) : (s.step cfg binning (.base a)).isSome := by
  rw [Tapped.step, baseStep, hfree, if_neg Bool.false_ne_true, Option.isSome_map]
  exact hstep

theorem free_of_none {s : Tapped n} {a : Action n} (h : waitsFor s.base a = none)
    (h' : waitsForTap s.base a = none) : s.blocked a = false := by
  rw [blocked, h, h']
  rfl

/-- A reader that is not at the end of its loop can go on, but for the head of `drain`, where
the stopping thread goes on. -/
theorem reader_ready {s : Tapped n} (htidy : Tidy s) {i : Fin n}
    (hbusy : (s.base.readers i).pc ≠ .returned)
    (hhead : (s.base.readers i).pc = .checking → s.submitting i = none →
      s.base.isDraining i = false) :
    Ready (Tapped.step cfg binning) Moves (.reader i) s := by
  cases hpc : (s.base.readers i).pc with
  | checking =>
    cases hsubmitting : s.submitting i with
    | none =>
      refine ⟨.base (.check i), rfl, base_ready (blocked_false (fun j hj => ?_)
        fun _ _ hj => by cases hj) ?_⟩
      · cases hj
        exact hsubmitting
      · rw [Readout.step, Readout.check]
        rw [if_pos ⟨hpc, hhead hpc hsubmitting⟩]
        rfl
    | some block =>
      obtain ⟨t, htap⟩ := Option.isSome_iff_exists.mp (htidy.pending i block hsubmitting).1
      refine ⟨.submit i, rfl, ?_⟩
      simp only [Tapped.step, Tapped.submit, hsubmitting, htap, hpc, if_true, Option.isSome_some]
  | reading =>
    refine ⟨.base (.read i none), rfl, base_ready (free_of_none rfl rfl) ?_⟩
    rw [Readout.step, Readout.read]
    rw [if_pos hpc]
    rfl
  | pushing block =>
    refine ⟨.base (.push i true), rfl, base_ready (free_of_none rfl rfl) ?_⟩
    rw [Readout.step, Readout.push]
    dsimp only
    rw [hpc]
    dsimp only
    split <;> rfl
  | counting block accepted =>
    refine ⟨.base (.count i), rfl, base_ready (free_of_none rfl rfl) ?_⟩
    rw [Readout.step, Readout.count]
    rw [hpc]
    rfl
  | returned => exact absurd hpc hbusy

theorem closing_ready {s : Tapped n} (htidy : Tidy s) {i : Fin n} (hclosing : Closing s.base i) :
    Ready (Tapped.step cfg binning) Moves (tapHelper i (s.taps i)) s := by
  obtain ⟨⟨reads, hat⟩, hreturned⟩ := hclosing
  have hrelease : (∀ t, s.taps i = some t → t.stopped = true) →
      Ready (Tapped.step cfg binning) Moves .stopper s := by
    intro hstopped
    refine ⟨.base .release, rfl, base_ready (blocked_false (fun _ hj => by cases hj)
      fun j t hj htap => ?_) ?_⟩
    · rw [waitsForTap_draining hat] at hj
      cases hj
      exact hstopped t htap
    · simp only [Readout.step, Readout.release, hat, i.isLt, dif_pos, hreturned, if_true,
        Option.isSome_some]
  cases htap : s.taps i with
  | none => exact hrelease fun t ht => by cases htap.symm.trans ht
  | some t =>
    show Ready _ _ (if t.running = false ∧ t.pc ≠ .returned then Agent.stage i else Agent.stopper) s
    split
    · next hhelps =>
      obtain ⟨b, t', hthread, hstep, _⟩ := closed_works cfg binning htap (htidy.sizes i t htap)
        (htidy.stopped i t htap hhelps.1) hhelps.2
      exact ⟨b, mover_thread hthread, by rw [hstep]; rfl⟩
    · next hno =>
      cases hrunning : t.running with
      | true =>
        refine ⟨.close i, rfl, ?_⟩
        rw [Tapped.step, Tapped.close, if_pos ⟨isDraining_iff.mpr ⟨reads, hat⟩, hreturned⟩, tapStep,
          htap, Option.bind_some, DecodeTap.close, if_pos hrunning]
        rfl
      | false =>
        refine hrelease fun u hu => ?_
        cases htap.symm.trans hu
        have hpc : t.pc = .returned := by_contra fun hne => hno ⟨hrunning, hne⟩
        rw [DecodeTap.stopped, hrunning, hpc]
        rfl

theorem helper_ready {s : Tapped n} (htidy : Tidy s) (hstanding : Standing s.base)
    (hcalled : s.base.stopPc ≠ .notCalled) (hgoal : s.base.stopPc ≠ .stopped) :
    Ready (Tapped.step cfg binning) Moves (helper s) s := by
  cases hat : s.base.stopPc with
  | notCalled => exact absurd hat hcalled
  | stopped => exact absurd hat hgoal
  | stopping j =>
    simp only [helper, hat]
    refine ⟨.base .stopBoard, rfl, base_ready (free_of_none rfl rfl) ?_⟩
    rw [Readout.step, Readout.stopBoard, hat]
    dsimp only
    split
    · split <;> rfl
    · rfl
  | joining j =>
    obtain ⟨i, rfl, _⟩ := hstanding.joining j hat
    rw [helper_joining hat, readerHelper]
    split
    · next hreturned =>
      refine ⟨.base .join, rfl, base_ready (free_of_none rfl rfl) ?_⟩
      simp only [Readout.step, Readout.join, hat, i.isLt, dif_pos, hreturned, if_true,
        Option.isSome_some]
    · next hbusy =>
      refine reader_ready htidy hbusy fun _ _ => eq_false_of_ne_true fun hdraining => ?_
      obtain ⟨reads, hat'⟩ := isDraining_iff.mp hdraining
      cases hat.symm.trans hat'
  | draining j reads =>
    obtain ⟨i, rfl⟩ : ∃ i : Fin n, j = i := ⟨⟨j, hstanding.draining j reads hat⟩, rfl⟩
    rw [helper_draining hat]
    cases hpc : (s.base.readers i).pc with
    | returned =>
      rw [drainHelper, hpc]
      exact closing_ready htidy ⟨⟨reads, hat⟩, hpc⟩
    | checking =>
      rw [drainHelper, hpc]
      dsimp only
      split
      · next hsome =>
        refine reader_ready htidy (by rw [hpc]; exact ReaderPc.noConfusion) fun _ hnone => ?_
        rw [hnone] at hsome
        cases hsome
      · next hnone =>
        refine ⟨.base (.drainCheck true), rfl, base_ready (blocked_false (fun k hk => ?_)
          fun _ _ hk => by cases hk) ?_⟩
        · rw [waitsFor_draining hat] at hk
          cases hk
          exact Option.not_isSome_iff_eq_none.mp hnone
        · simp only [Readout.step, Readout.drainCheck, hat, i.isLt, dif_pos, hpc, if_true,
            reduceCtorEq, and_false, if_false, Option.isSome_some]
    | _ =>
      simp only [drainHelper, hpc]
      exact reader_ready htidy (by rw [hpc]; exact ReaderPc.noConfusion)
        fun hchecking => by cases hpc.symm.trans hchecking
  | joiningWriter =>
    simp only [helper, hat]
    split
    · next hreturned =>
      refine ⟨.base (.joinWriter {} {}), rfl, base_ready (free_of_none rfl rfl) ?_⟩
      simp only [Readout.step, Readout.joinWriter, hat, hreturned, and_self, if_true,
        Option.isSome_some]
    · next hbusy =>
      cases hpc : s.base.writerPc with
      | returned => exact absurd hpc hbusy
      | holding block =>
        refine ⟨.base (.write {}), rfl, base_ready (free_of_none rfl rfl) ?_⟩
        rw [Readout.step, Readout.write, hpc]
        rfl
      | popping =>
        cases hpop : s.base.queue.pop with
        | some p =>
          refine ⟨.base .pop, rfl, base_ready (free_of_none rfl rfl) ?_⟩
          rw [Readout.step, Readout.pop, if_pos hpc, hpop]
          rfl
        | none =>
          refine ⟨.base .writerReturn, rfl, base_ready (free_of_none rfl rfl) ?_⟩
          have hdrained : s.base.queue.drained = true := by
            rw [BlockQueue.drained, hstanding.closed hat, BlockQueue.pop_none hpop]
            rfl
          rw [Readout.step, Readout.writerReturn, if_pos ⟨hpc, hdrained⟩]
          rfl

theorem step_called {s s' : Tapped n} {b : TapAction n} (h : s.base.stopPc ≠ .notCalled)
    (hstep : s.step cfg binning b = some s') : s'.base.stopPc ≠ .notCalled := by
  cases hlabel : label b with
  | none =>
    rw [show s'.base = s.base from (layer cfg binning).hidden s s' b hlabel hstep]
    exact h
  | some a => exact called_kept h ((layer cfg binning).visible s s' b a hlabel hstep)

theorem step_stopped {s s' : Tapped n} {b : TapAction n} (h : s.base.stopPc = .stopped)
    (hstep : s.step cfg binning b = some s') : s'.base.stopPc = .stopped := by
  cases hlabel : label b with
  | none =>
    rw [show s'.base = s.base from (layer cfg binning).hidden s s' b hlabel hstep]
    exact h
  | some a => exact stopped_kept h ((layer cfg binning).visible s s' b a hlabel hstep)

theorem stop_ranked : Ranked (Tapped.step (n := n) cfg binning) Moves
    (fun s => Steady s ∧ s.base.stopPc ≠ .notCalled) (fun s => s.base.stopPc = .stopped) rank
    helper where
  ready _ h hgoal := helper_ready h.1.tidy h.1.standing h.2 hgoal
  down _ _ _ h _ hstep := step_down h.1.standing h.2 hstep

/-- When the stop is over nothing happens any more, but for calls from outside. -/
theorem stopped_still {s s' : Tapped n} (h : Steady s) (hstopped : s.base.stopPc = .stopped)
    {b : TapAction n} (hstep : s.step cfg binning b = some s') : ∃ i c, b = .call i c := by
  have hreturned : ∀ {i : Fin n} {pc : ReaderPc}, (s.base.readers i).pc = pc → pc = .returned :=
    fun hpc => hpc.symm.trans (h.standing.passed _ (by rw [hstopped]; trivial))
  have hwriter : ∀ {pc : WriterPc n}, s.base.writerPc = pc → pc = .returned :=
    fun hpc => hpc.symm.trans (h.standing.ended hstopped)
  cases step_happens hstep with
  | base a base hfree hbase =>
    cases step_takes hbase with
    | check i hpc => cases hreturned hpc
    | read i answer hpc => cases hreturned hpc
    | waited i timedOut block hpc => cases hreturned hpc
    | pushed i timedOut block accepted q hpc => cases hreturned hpc
    | count i block accepted hpc => cases hreturned hpc
    | pop block q hpc => cases hwriter hpc
    | write turn block hpc => cases hwriter hpc
    | idle turn hpc => cases hwriter hpc
    | writerReturn hpc => cases hwriter hpc
    | stop hpc => cases hpc.symm.trans hstopped
    | stopBoard i hpc => cases hpc.symm.trans hstopped
    | skipBoard i hpc => cases hpc.symm.trans hstopped
    | closeQueue i hpc => cases hpc.symm.trans hstopped
    | join i hpc => cases hpc.symm.trans hstopped
    | drainMore i reads late hpc => cases hpc.symm.trans hstopped
    | drainDone i reads late hpc => cases hpc.symm.trans hstopped
    | release i reads hpc => cases hpc.symm.trans hstopped
    | joinWriter flush close hpc => cases hpc.symm.trans hstopped
  | submit i block t hsubmitting htap hpc => cases hreturned hpc
  | works b i t t' hthread htap hworks =>
    have hover := h.stopped i t htap (by rw [hstopped]; trivial)
    exact absurd (of_decide_eq_true (Bool.and_eq_true_iff.mp hover).2) (DecodeTap.works_busy hworks)
  | call i c => exact ⟨i, c, rfl⟩
  | close i t hdraining =>
    obtain ⟨reads, hat⟩ := isDraining_iff.mp hdraining
    cases hat.symm.trans hstopped

theorem stopped_idle {s : Tapped n} (h : Steady s) (hstopped : s.base.stopPc = .stopped)
    {g : Agent n} {b : TapAction n} (hmoves : Moves g b) : s.step cfg binning b = none := by
  refine Option.eq_none_iff_forall_ne_some.mpr fun s' hstep => ?_
  obtain ⟨i, c, rfl⟩ := stopped_still h hstopped hstep
  cases hmoves

theorem launched_steady {before : List Daq.Call} {o : Launches}
    (hstarted : ((Daq.history cfg {} before).start cfg o).1 = true)
    (stages : Fin (Daq.history cfg {} (before ++ [.start o])).runners.length → Option DecodeStage) :
    Steady (.ofDaq (Daq.history cfg {} (before ++ [.start o])) stages) :=
  ofDaq_steady (Recording.started_boards hstarted) stages

/-- After any start, once `Daq::stop` is called it returns, in every endless run in which no
thread that could go on stands still for ever: whatever the boards answer and for how long,
whatever fails of the file, whether the queues are full, and whatever the stages have left to
decode. From the moment it has returned on, nothing happens but calls of the owner of the
hits, and the stages are at rest. -/
theorem stop_returns {before : List Daq.Call} {o : Launches}
    (hstarted : ((Daq.history cfg {} before).start cfg o).1 = true)
    {stages : Fin (Daq.history cfg {} (before ++ [.start o])).runners.length → Option DecodeStage}
    {s : ℕ → Tapped (Daq.history cfg {} (before ++ [.start o])).runners.length}
    {act : ℕ → Option (TapAction (Daq.history cfg {} (before ++ [.start o])).runners.length)}
    (hfirst : s 0 = .ofDaq (Daq.history cfg {} (before ++ [.start o])) stages)
    (hrun : Endless (Tapped.step cfg binning) s act)
    (hfits : ∀ k b, act k = some b → ∀ a, label b = some a → Fits a)
    (hfair : Fair (Tapped.step cfg binning) Moves s act) {k : ℕ}
    (hcalled : (s k).base.stopPc ≠ .notCalled) :
    (∃ m, k ≤ m ∧ ∀ l, m ≤ l → (s l).base.stopPc = .stopped) ∧
      ∀ l, (s l).base.stopPc = .stopped →
        (∀ b, act l = some b → ∃ i c, b = .call i c) ∧
          ∀ i t, (s l).taps i = some t → ∃ stage : DecodeStage, stage.tap = t := by
  have hbegins : Steady (s 0) := hfirst ▸ launched_steady hstarted stages
  have hsteady : ∀ m, Steady (s m) := fun m =>
    hrun.invariant (fun l x ha h hstep => step_steady h (hfits l x ha) hstep) hbegins
      (Nat.zero_le m)
  refine ⟨?_, fun l hstopped => ⟨fun b hb => ?_, fun i t htap => (hsteady l).rests hstopped htap⟩⟩
  · obtain ⟨m, hkm, hstopped⟩ := stop_ranked.attains hrun hfair fun l hl => ⟨hsteady l,
      hrun.invariant (I := fun s => s.base.stopPc ≠ .notCalled)
        (fun _ _ _ h hstep => step_called h hstep) hcalled hl⟩
    exact ⟨m, hkm, fun l hl => hrun.invariant (I := fun s => s.base.stopPc = .stopped)
      (fun _ _ _ h hstep => step_stopped h hstep) hstopped hl⟩
  · exact stopped_still (hsteady l) hstopped (hrun.takes hb)

/-- The stage of a board has a block waiting when the stop is called. -/
theorem stop_returns_pair :
    let s := states (Tapped.step pairConfig flatBinning) (.ofDaq pairDaq pairStages) pairActions
    (s 23).base.stopPc = .stopping 0 ∧ ∃ m, 23 ≤ m ∧ (s m).base.stopPc = .stopped := by
  intro s
  have hcalled : (s 23).base.stopPc = .stopping 0 := by decide +kernel
  obtain ⟨t, _, hrun, _, hstopped, _⟩ := pair_taps
  obtain ⟨hendless, hfirst, _⟩ := states_endless hrun
  have hstarted : ((Daq.history pairConfig {} pair).start
      pairConfig {}).1 = true := by decide +kernel
  have hfits : ∀ b ∈ pairActions, ∀ a, label b = some a → Fits a :=
    fits_labels (by decide +kernel)
  have hsteady : Steady t :=
    run_invariant (fun _ _ b hb h hstep => step_steady h (hfits b hb) hstep)
      (launched_steady hstarted pairStages) hrun
  have hfair : Fair (Tapped.step pairConfig flatBinning) Moves s (fun k => pairActions[k]?) :=
    states_fair hrun fun _ _ hmoves => stopped_idle hsteady hstopped hmoves
  obtain ⟨⟨m, hm, hend⟩, _⟩ :=
    @stop_returns pairConfig flatBinning pair {} hstarted pairStages s _ hfirst hendless
      (fun _ b hb => hfits b (List.mem_of_getElem? hb)) hfair 23
      (by rw [hcalled]; exact StopPc.noConfusion)
  exact ⟨hcalled, m, hm, hend m (Nat.le_refl m)⟩

end StopReturns
end CaenDaq
