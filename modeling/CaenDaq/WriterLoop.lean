import CaenDaq.RawFileWriter

/-!
# The writer thread

`writerLoop` takes the blocks of the shared queue to the file writer and flushes it now
and then; `teardownWriter` closes the file after the last of them. A failed write ends
the loop and is remembered, a failed flush or close is not.
-/

namespace CaenDaq

/-- One round of the loop: the block that was waiting, if one was, the answers of the
file system, and whether a second has passed since the last flush. -/
structure Turn where
  block : Option RawBlock := none
  writing : Writing := {}
  flushDue : Bool := false
  flush : Transfer := {}
  deriving DecidableEq, Repr

structure Turn.Fine (t : Turn) : Prop where
  writing : t.writing.Fine
  flush : t.flush.ok = true

structure WriterLoop where
  writer : RawFileWriter
  dirty : Bool := false
  writerFailed : Bool := false
  /-- The blocks for which `write` returned true. -/
  accepted : List RawBlock := []
  deriving DecidableEq, Repr

namespace WriterLoop

variable (cfg : WriterConfig)

def flushIfDue (t : Turn) (l : WriterLoop) : WriterLoop :=
  if l.dirty && (t.block.isNone || t.flushDue) then
    { l with writer := (l.writer.flush t.flush).2, dirty := false }
  else l

def turn (l : WriterLoop) (t : Turn) : WriterLoop :=
  if l.writerFailed then l
  else
    match t.block with
    | none => flushIfDue t l
    | some block =>
      let r := l.writer.write cfg block t.writing
      if !r.1 then { l with writer := r.2, writerFailed := true }
      else flushIfDue t { l with writer := r.2, dirty := true, accepted := l.accepted ++ [block] }

/-- The rounds up to the one that finds the queue closed and drained. -/
def writerLoop (l : WriterLoop) (turns : List Turn) : WriterLoop := turns.foldl (turn cfg) l

def teardown (t t' : Transfer) (l : WriterLoop) : WriterLoop :=
  { l with writer := l.writer.close t t' }

/-- As long as no write failed, the writer has taken what the loop had accepted. -/
structure Healthy (l : WriterLoop) : Prop where
  ready : l.writer.Ready
  taken : l.writer.taken = l.accepted.flatten
  totalBytes : l.writer.totalBytes = l.accepted.flatten.length

variable {cfg}

theorem flushIfDue_failed (t : Turn) (l : WriterLoop) :
    (flushIfDue t l).writerFailed = l.writerFailed := by
  unfold flushIfDue
  split <;> rfl

theorem flushIfDue_healthy {l : WriterLoop} (h : Healthy l) (t : Turn) :
    Healthy (flushIfDue t l) := by
  obtain ⟨hready, htaken, htotal⟩ := RawFileWriter.flush_spec h.ready t.flush
  unfold flushIfDue
  split
  · exact ⟨hready, htaken.trans h.taken, htotal.trans h.totalBytes⟩
  · exact h

theorem turn_failed {l : WriterLoop} {t : Turn} (hok : (turn cfg l t).writerFailed = false) :
    l.writerFailed = false := by
  refine eq_false_of_ne_true fun hfailed => ?_
  rw [turn, if_pos hfailed, hfailed] at hok
  exact absurd hok.symm Bool.false_ne_true

theorem turn_healthy {l : WriterLoop} {t : Turn}
    (h : l.writerFailed = false → Healthy l) (hok : (turn cfg l t).writerFailed = false) :
    Healthy (turn cfg l t) := by
  have hbefore : ¬l.writerFailed = true := by simp [turn_failed hok]
  have hl := h (turn_failed hok)
  unfold turn at hok ⊢
  rw [if_neg hbefore] at hok ⊢
  cases hblock : t.block with
  | none => exact flushIfDue_healthy hl t
  | some block =>
    simp only [hblock] at hok ⊢
    by_cases hwritten : (l.writer.write cfg block t.writing).1 = true
    · obtain ⟨hready, htaken, htotal⟩ := RawFileWriter.write_spec hl.ready hwritten
      simp only [hwritten, Bool.not_true, Bool.false_eq_true, if_false]
      refine flushIfDue_healthy ⟨hready, ?_, ?_⟩ t
      · rw [htaken, hl.taken, List.flatten_append, List.flatten_singleton]
      · rw [htotal, hl.totalBytes, List.flatten_append, List.flatten_singleton,
          List.length_append]
    · simp [hwritten] at hok

theorem writerLoop_healthy {l : WriterLoop} (h : l.writerFailed = false → Healthy l)
    {turns : List Turn} (hok : (writerLoop cfg l turns).writerFailed = false) :
    Healthy (writerLoop cfg l turns) := by
  unfold writerLoop at hok ⊢
  induction turns generalizing l with
  | nil => exact h hok
  | cons t turns ih => exact ih (fun hturn => turn_healthy h hturn) hok

def begun (cfg : WriterConfig) (o : Opening) : WriterLoop :=
  { writer := (RawFileWriter.openFirst cfg o {}).2 }

theorem begun_healthy {o : Opening} (h : (RawFileWriter.openFirst cfg o {}).1 = true) :
    Healthy (begun cfg o) := by
  obtain ⟨hready, htaken, htotal⟩ := RawFileWriter.openFirst_spec h
  exact ⟨hready, htaken, htotal⟩

structure Flawless (l : WriterLoop) : Prop extends Healthy l where
  writer : l.writer.Flawless
  writerFailed : l.writerFailed = false

theorem begun_flawless {o : Opening} (h : (RawFileWriter.openFirst cfg o {}).1 = true) :
    Flawless (begun cfg o) :=
  ⟨begun_healthy h, RawFileWriter.openFirst_flawless h, rfl⟩

theorem flushIfDue_flawless {l : WriterLoop} (h : l.writer.Flawless) {t : Turn}
    (ht : t.flush.ok = true) : (flushIfDue t l).writer.Flawless := by
  unfold flushIfDue
  split
  · exact RawFileWriter.flush_flawless h ht
  · exact h

theorem flushIfDue_accepted (t : Turn) (l : WriterLoop) :
    (flushIfDue t l).accepted = l.accepted := by
  unfold flushIfDue
  split <;> rfl

theorem turn_flawless (cfg : WriterConfig) {l : WriterLoop} (h : Flawless l) {t : Turn} (ht : t.Fine) :
    Flawless (turn cfg l t) ∧ (turn cfg l t).accepted = l.accepted ++ t.block.toList := by
  have hbefore : ¬l.writerFailed = true := by simp [h.writerFailed]
  suffices hturn : (turn cfg l t).writerFailed = false ∧ (turn cfg l t).writer.Flawless ∧
      (turn cfg l t).accepted = l.accepted ++ t.block.toList from
    ⟨⟨turn_healthy (fun _ => h.toHealthy) hturn.1, hturn.2.1, hturn.1⟩, hturn.2.2⟩
  unfold turn
  rw [if_neg hbefore]
  cases hblock : t.block with
  | none =>
    refine ⟨(flushIfDue_failed t l).trans h.writerFailed, flushIfDue_flawless h.writer ht.flush, ?_⟩
    rw [Option.toList_none, List.append_nil]
    exact flushIfDue_accepted t l
  | some block =>
    have hwrite : (l.writer.write cfg block t.writing).1 = true ∧
        (l.writer.write cfg block t.writing).2.Flawless :=
      RawFileWriter.write_flawless h.writer ht.writing
    obtain ⟨hok, hflawless⟩ := hwrite
    simp only [hok, Bool.not_true, Bool.false_eq_true, if_false]
    exact ⟨(flushIfDue_failed t _).trans h.writerFailed, flushIfDue_flawless hflawless ht.flush,
      flushIfDue_accepted t _⟩

theorem teardown_flawless {l : WriterLoop} (h : Flawless l) (t : Transfer) {t' : Transfer}
    (ht' : t'.ok = true) :
    (teardown t t' l).writer.payload = l.accepted.flatten ∧
      (teardown t t' l).writer.totalBytes = l.accepted.flatten.length := by
  obtain ⟨_, _, htotal⟩ := RawFileWriter.close_spec h.ready t t'
  exact ⟨(RawFileWriter.close_flawless h.writer t ht').trans h.taken,
    htotal.trans h.totalBytes⟩

/-- The whole run of the writer, up to the end of `teardownWriter`. -/
def finished (cfg : WriterConfig) (o : Opening) (turns : List Turn) (t t' : Transfer) :
    WriterLoop :=
  teardown t t' (writerLoop cfg (begun cfg o) turns)

/-- A round leaves nothing behind in the part that it closes, if it closes one. -/
def TurnCarries (cfg : WriterConfig) (l : WriterLoop) (t : Turn) : Prop :=
  ∀ block ∈ t.block, l.writer.CarriesOver cfg block t.writing.rotation

/-- None of the rounds does, each in the state that it finds. -/
def RoundsCarry (cfg : WriterConfig) : WriterLoop → List Turn → Prop
  | _, [] => True
  | l, t :: turns => TurnCarries cfg l t ∧ RoundsCarry cfg (turn cfg l t) turns

theorem flushIfDue_parts (t : Turn) (l : WriterLoop) :
    (flushIfDue t l).writer.parts = l.writer.parts := by
  unfold flushIfDue RawFileWriter.flush
  split
  · dsimp only
    split <;> rfl
  · rfl

theorem writerLoop_failed {turns : List Turn} {l : WriterLoop}
    (hok : (writerLoop cfg l turns).writerFailed = false) : l.writerFailed = false := by
  induction turns generalizing l with
  | nil => exact hok
  | cons t turns ih => exact turn_failed (ih hok)

/-- One round: the parts stay complete exactly if it carries. -/
theorem turn_complete {l : WriterLoop} (hl : Healthy l) {t : Turn}
    (hok : (turn cfg l t).writerFailed = false) :
    (∀ p ∈ (turn cfg l t).writer.parts, p.Complete) ↔
      (∀ p ∈ l.writer.parts, p.Complete) ∧ TurnCarries cfg l t := by
  have hbefore : ¬l.writerFailed = true := by simp [turn_failed hok]
  unfold turn at hok ⊢
  rw [if_neg hbefore] at hok ⊢
  cases hblock : t.block with
  | none => simp [flushIfDue_parts, TurnCarries, hblock]
  | some block =>
    simp only [hblock] at hok ⊢
    by_cases hwritten : (l.writer.write cfg block t.writing).1 = true
    · simp only [hwritten, Bool.not_true, Bool.false_eq_true, if_false, flushIfDue_parts]
      rw [RawFileWriter.write_complete hl.ready hwritten]
      simp [TurnCarries, hblock]
    · simp [hwritten] at hok

/-- Every round: the induction goes over the rounds with the healthy loop as invariant. -/
theorem writerLoop_complete {turns : List Turn} {l : WriterLoop} (hl : Healthy l)
    (hok : (writerLoop cfg l turns).writerFailed = false) :
    (∀ p ∈ (writerLoop cfg l turns).writer.parts, p.Complete) ↔
      (∀ p ∈ l.writer.parts, p.Complete) ∧ RoundsCarry cfg l turns := by
  induction turns generalizing l with
  | nil => exact (and_iff_left trivial).symm
  | cons t turns ih =>
    have hturn : (turn cfg l t).writerFailed = false := writerLoop_failed hok
    have hrest := ih (turn_healthy (fun _ => hl) hturn) hok
    rw [turn_complete hl hturn, and_assoc] at hrest
    exact hrest

/-- When no failure is reported, the part files hold every block that was accepted if,
and only if, the closing of each part, at a rotation or at the end, left none of its
blocks behind in the stream. -/
theorem unreported_iff {o : Opening} (hopen : (RawFileWriter.openFirst cfg o {}).1 = true)
    (turns : List Turn) (t t' : Transfer)
    (hok : (finished cfg o turns t t').writerFailed = false) :
    (finished cfg o turns t t').writer.payload = (finished cfg o turns t t').accepted.flatten ↔
      RoundsCarry cfg (begun cfg o) turns ∧
        (writerLoop cfg (begun cfg o) turns).writer.CarriesLast t t' := by
  have hbegun := begun_healthy hopen
  have hparts : ∀ p ∈ (begun cfg o).writer.parts, p.Complete := by
    obtain ⟨_, _, _, _, hparts, _⟩ := RawFileWriter.openCycle_spec hopen
    rw [begun, RawFileWriter.openFirst, hparts]
    exact fun p hp => absurd hp List.not_mem_nil
  have hhealthy := writerLoop_healthy (fun _ => hbegun) hok
  obtain ⟨hkept, htaken, _⟩ := RawFileWriter.close_spec hhealthy.ready t t'
  have hstored := RawFileWriter.payload_eq_iff hkept
  rw [htaken, hhealthy.taken, RawFileWriter.close_complete hhealthy.ready,
    writerLoop_complete hbegun hok, and_iff_right hparts] at hstored
  exact hstored

def rotated : List Turn := [{ block := some [1, 2] }, { block := some [3] }]

theorem unreported_iff_rotated :
    (finished { maxFileBytes := 2 } {} rotated {} {}).writer.payload = [1, 2, 3] ↔
      RoundsCarry { maxFileBytes := 2 } (begun { maxFileBytes := 2 } {}) rotated ∧
        (writerLoop { maxFileBytes := 2 } (begun { maxFileBytes := 2 } {})
          rotated).writer.CarriesLast {} {} :=
  unreported_iff (by decide) rotated {} {} (by decide)

/-- The device fills up behind the stream: the block is accepted, the flush fails when
no more data come, and so does the close. -/
def diskFull : WriterLoop :=
  finished {} {} [{ block := some [1, 2, 3] }, { flush := { ok := false } }] { ok := false }
    { ok := false }

/-- A block is lost and nothing tells. -/
theorem lost_unreported :
    diskFull.writerFailed = false ∧ diskFull.accepted = [[1, 2, 3]] ∧
      diskFull.writer.payload = [] := by
  decide

end WriterLoop
end CaenDaq
