import CaenDaq.Delivery
import CaenDaq.PartFiles
import CaenDaq.ReadoutSteps

/-!
# Where the blocks are, whatever the file system answers

`Placed` needs a file system that does not fail. What can be said of any other: each part
file begins as the header and its blocks do, and the blocks of the parts, in the order of
the parts, are those that were given to the writer. Only at the end may one be missing.
-/

namespace CaenDaq
namespace RawFileWriter

variable {cfg : WriterConfig}

/-- What may stand in front of the blocks of a part. -/
def MayHead (cfg : WriterConfig) (header : List (BitVec 8)) : Prop :=
  header = [] ∨ header = cfg.header

/-- A file that breaks off somewhere in its header or in the blocks behind it. -/
def Begins (cfg : WriterConfig) (blocks : List RawBlock) (file : List (BitVec 8)) : Prop :=
  ∃ header, MayHead cfg header ∧ file <+: header ++ blocks.flatten

theorem Begins.cut {blocks : List RawBlock} {file start : List (BitVec 8)}
    (h : Begins cfg blocks file) (hstart : start <+: file) : Begins cfg blocks start := by
  obtain ⟨header, hheader, hfile⟩ := h
  exact ⟨header, hheader, hstart.trans hfile⟩

/-- The files of a run at any moment: the parts that were closed, and what the stream has
brought over into the current one. -/
def onDisk (w : RawFileWriter) : List (List (BitVec 8)) :=
  w.parts.map Part.content ++ if w.file.isOpen then [w.file.device] else []

/-- The blocks are filed in the parts and in the current one, as they were given. -/
structure Filed (cfg : WriterConfig) (given : List RawBlock) (w : RawFileWriter) : Prop extends
    Ready w where
  header : MayHead cfg w.header
  headers : ∀ p ∈ w.parts, MayHead cfg p.header
  blocks : (w.parts.map Part.blocks).flatten ++ w.blocks = given

structure Shelved (cfg : WriterConfig) (given : List RawBlock) (w : RawFileWriter) : Prop where
  kept : ∀ p ∈ w.parts, p.Kept
  headers : ∀ p ∈ w.parts, MayHead cfg p.header
  blocks : (w.parts.map Part.blocks).flatten = given
  isOpen : w.file.isOpen = false

/-- The closed files when a failure may have spoilt the end: some of the blocks that were
given are in none of them, or with their beginning only. -/
def Torn (cfg : WriterConfig) (given : List RawBlock) (w : RawFileWriter) : Prop :=
  ∃ filed last, List.Forall₂ (Begins cfg) filed (w.parts.map Part.content) ∧
    (w.file.isOpen = true → Begins cfg last w.file.written) ∧ filed.flatten ++ last <+: given

theorem Torn.onDisk {given : List RawBlock} {w : RawFileWriter} (h : Torn cfg given w) :
    ∃ filed, List.Forall₂ (Begins cfg) filed (onDisk w) ∧ filed.flatten <+: given := by
  obtain ⟨filed, last, hparts, hlast, hgiven⟩ := h
  rw [RawFileWriter.onDisk]
  cases hopen : w.file.isOpen with
  | false =>
    rw [if_neg Bool.false_ne_true, List.append_nil]
    exact ⟨filed, hparts, (List.prefix_append _ _).trans hgiven⟩
  | true =>
    have hdevice : Begins cfg last w.file.device := (hlast hopen).cut (List.prefix_append _ _)
    refine ⟨filed ++ [last], ?_, ?_⟩
    · exact List.rel_append hparts (List.Forall₂.cons hdevice List.Forall₂.nil)
    · rwa [List.flatten_append, List.flatten_singleton]

theorem begins_parts {w : RawFileWriter} (hkept : ∀ p ∈ w.parts, p.Kept)
    (hheaders : ∀ p ∈ w.parts, MayHead cfg p.header) :
    List.Forall₂ (Begins cfg) (w.parts.map Part.blocks) (w.parts.map Part.content) := by
  rw [List.forall₂_map_left_iff, List.forall₂_map_right_iff, List.forall₂_same]
  exact fun p hp => ⟨p.header, hheaders p hp, (hkept p hp).initial⟩

theorem Filed.torn {given : List RawBlock} {w : RawFileWriter} (h : Filed cfg given w) :
    Torn cfg given w :=
  ⟨_, w.blocks, begins_parts h.parts h.headers,
    fun _ => ⟨w.header, h.header, by rw [h.written]⟩, by rw [h.blocks]⟩

theorem Shelved.torn {given : List RawBlock} {w : RawFileWriter} (h : Shelved cfg given w) :
    Torn cfg given w := by
  refine ⟨_, [], begins_parts h.kept h.headers, fun hopen => ?_, ?_⟩
  · rw [h.isOpen] at hopen
    cases hopen
  · rw [List.append_nil, h.blocks]

theorem Torn.more {given : List RawBlock} {w : RawFileWriter} (h : Torn cfg given w)
    (data : List RawBlock) : Torn cfg (given ++ data) w := by
  obtain ⟨filed, last, hparts, hlast, hgiven⟩ := h
  exact ⟨filed, last, hparts, hlast, hgiven.trans (List.prefix_append _ _)⟩

theorem closeFile_shelved {given : List RawBlock} {w : RawFileWriter} (h : Filed cfg given w)
    (t : Transfer) : Shelved cfg given (closeFile t w) := by
  obtain ⟨hkept, _, _⟩ := closeFile_spec h.toReady t
  have hparts : (closeFile t w).parts = w.parts ++
      [{ header := w.header, blocks := w.blocks, content := (w.file.close t).device
         carried := w.file.buffer = [] || t.ok }] := by
    simp [closeFile, h.isOpen]
  refine ⟨hkept, ?_, ?_, ?_⟩
  · rw [hparts]
    exact List.forall_mem_append.mpr ⟨h.headers, List.forall_mem_singleton.mpr h.header⟩
  · rw [hparts, List.map_append, List.flatten_append, ← h.blocks]
    exact congrArg _ (List.append_nil _)
  · show (w.file.close t).isOpen = false
    rw [BufferedStream.close, if_pos h.isOpen]

theorem closeFile_torn {given : List RawBlock} {w : RawFileWriter} (h : Torn cfg given w)
    (t : Transfer) : Torn cfg given (closeFile t w) ∧ (closeFile t w).file.isOpen = false := by
  obtain ⟨filed, last, hparts, hlast, hgiven⟩ := h
  cases hopen : w.file.isOpen with
  | false =>
    have hclosed : (w.file.close t).isOpen = false := by
      rw [BufferedStream.close, if_neg (by rw [hopen]; exact Bool.false_ne_true)]
      exact hopen
    refine ⟨⟨filed, last, ?_, fun hno => ?_, hgiven⟩, hclosed⟩
    · simp only [closeFile, hopen, Bool.false_eq_true, if_false]
      exact hparts
    · exact absurd (hclosed.symm.trans hno) Bool.false_ne_true
  | true =>
    have hclosed : (w.file.close t).isOpen = false := by
      rw [BufferedStream.close, if_pos hopen]
    have hcontent : Begins cfg last (w.file.close t).device :=
      (hlast hopen).cut (BufferedStream.close_device hopen t).1
    refine ⟨⟨filed ++ [last], [], ?_, fun hno => ?_, ?_⟩, hclosed⟩
    · simp only [closeFile, hopen, if_true, List.map_append, List.map_cons, List.map_nil]
      exact List.rel_append hparts (List.Forall₂.cons hcontent List.Forall₂.nil)
    · exact absurd (hclosed.symm.trans hno) Bool.false_ne_true
    · rwa [List.flatten_append, List.flatten_singleton, List.append_nil]

theorem close_shelved {given : List RawBlock} {w : RawFileWriter} (h : Filed cfg given w)
    (t t' : Transfer) : Shelved cfg given (close t t' w) := by
  have hopen : ¬w.closed = true := by simp [h.closed]
  have hflushed : Filed cfg given { w with file := w.file.flush t } :=
    ⟨⟨by rw [BufferedStream.flush_isOpen, h.isOpen], h.closed,
      by rw [BufferedStream.flush_written, h.written], h.parts⟩, h.header, h.headers, h.blocks⟩
  obtain ⟨hkept, hheaders, hblocks, hclosed⟩ := closeFile_shelved hflushed t'
  rw [close, if_neg hopen]
  simp only [h.isOpen, if_true]
  exact ⟨hkept, hheaders, hblocks, hclosed⟩

theorem close_torn {given : List RawBlock} {w : RawFileWriter} (h : Torn cfg given w)
    (t t' : Transfer) : Torn cfg given (close t t' w) := by
  unfold close
  split
  · exact h
  · dsimp only
    split
    · obtain ⟨filed, last, hparts, hlast, hgiven⟩ := h
      have hflushed : Torn cfg given { w with file := w.file.flush t } := by
        refine ⟨filed, last, hparts, fun hopen => ?_, hgiven⟩
        change (w.file.flush t).isOpen = true at hopen
        rw [BufferedStream.flush_isOpen] at hopen
        show Begins cfg last (w.file.flush t).written
        rw [BufferedStream.flush_written]
        exact hlast hopen
      obtain ⟨filed', last', hparts', hlast', hgiven'⟩ := (closeFile_torn hflushed t').1
      exact ⟨filed', last', hparts', hlast', hgiven'⟩
    · exact h

theorem flush_filed {given : List RawBlock} {w : RawFileWriter} (h : Filed cfg given w)
    (t : Transfer) : Filed cfg given (flush t w).2 := by
  have hready := (flush_spec h.toReady t).1
  have hopen : ¬(w.closed || !w.file.isOpen) = true := by simp [h.closed, h.isOpen]
  rw [flush, if_neg hopen] at hready ⊢
  exact ⟨hready, h.header, h.headers, h.blocks⟩

theorem rotate_filed {given : List RawBlock} {w : RawFileWriter} (h : Filed cfg given w) (len : ℕ)
    (o : Opening) :
    ((rotate cfg len o w).1 = true → Filed cfg given (rotate cfg len o w).2) ∧
      Torn cfg given (rotate cfg len o w).2 := by
  unfold rotate
  split
  · have hnext : Filed cfg given { w with cycle := w.cycle + 1 } :=
      ⟨⟨h.isOpen, h.closed, h.written, h.parts⟩, h.header, h.headers, h.blocks⟩
    have hshelved := closeFile_shelved hnext o.closing
    obtain ⟨hparts, hclosed⟩ := closeFile_torn hnext.torn o.closing
    obtain ⟨filed, last, hfiled, _, hgiven⟩ := hparts
    simp only [openCycle, Bool.false_and, Bool.false_eq_true, if_false]
    cases hdirectory : o.directory with
    | false => exact ⟨fun hok => absurd hok Bool.false_ne_true, hnext.torn⟩
    | true =>
      cases hopened : o.opened with
      | false =>
        have hno : ((closeFile o.closing { w with cycle := w.cycle + 1 }).file.clear.openFile
            false).isOpen = false := by
          simp only [BufferedStream.openFile, BufferedStream.clear, Bool.false_eq_true, if_false]
          exact hclosed
        simp only [Bool.not_true, Bool.false_eq_true, if_false, hno, Bool.not_false, if_true,
          false_implies, true_and]
        exact ⟨filed, last, hfiled, fun hyes => absurd (hno.symm.trans hyes) Bool.false_ne_true,
          hgiven⟩
      | true =>
        simp only [BufferedStream.openFile, Bool.not_true, Bool.false_eq_true, if_false, if_true]
        suffices hfiled : Filed cfg given _ from ⟨fun _ => hfiled, hfiled.torn⟩
        exact ⟨⟨rfl, rfl, rfl, hshelved.kept⟩, .inl rfl, hshelved.headers,
          (List.append_nil _).trans hshelved.blocks⟩
  · exact ⟨fun _ => h, h.torn⟩

theorem write_begins {file : BufferedStream (BitVec 8)} (data : List (BitVec 8)) (t : Transfer) :
    (file.write data t).written <+: file.written ++ data := by
  unfold BufferedStream.write
  split
  · show (BufferedStream.transfer t.arrived
      { file with buffer := file.buffer ++ data }).written <+: _
    rw [BufferedStream.transfer_written]
    show file.device ++ (file.buffer ++ data) <+: _
    rw [← List.append_assoc]
    exact List.prefix_refl _
  · exact List.prefix_append _ _

theorem write_filed {given : List RawBlock} {w : RawFileWriter} (h : Filed cfg given w)
    (data : RawBlock) (o : Writing) :
    ((write cfg data o w).1 = true → Filed cfg (given ++ filled [data]) (write cfg data o w).2) ∧
      Torn cfg (given ++ filled [data]) (write cfg data o w).2 := by
  obtain ⟨hrotated, htorn⟩ := rotate_filed h data.length o.rotation
  have hopen : ¬w.closed = true := by simp [h.closed]
  unfold write
  rw [if_neg hopen]
  by_cases hempty : data = []
  · have hfilled : filled [data] = [] := by simp [filled, hempty]
    rw [if_pos (by rw [hempty]; rfl), hfilled, List.append_nil]
    exact ⟨fun _ => h, h.torn⟩
  · have hfilled : filled [data] = [data] := by simp [filled, hempty]
    rw [if_neg fun hzero => hempty (List.eq_nil_of_length_eq_zero hzero), hfilled]
    generalize rotate cfg data.length o.rotation w = r at *
    cases hok : r.1 with
    | false =>
      simp only [hok, Bool.not_false, if_true, Bool.false_eq_true, false_implies, true_and]
      exact htorn.more _
    | true =>
      have hfiled := hrotated hok
      have hbegins :
          Begins cfg (r.2.blocks ++ [data]) (r.2.file.write data o.transfer).written := by
        refine ⟨r.2.header, hfiled.header, ?_⟩
        rw [List.flatten_append, List.flatten_singleton, ← List.append_assoc, ← hfiled.written]
        exact write_begins data o.transfer
      have hspoilt : Torn cfg (given ++ [data])
          { r.2 with file := r.2.file.write data o.transfer } := by
        refine ⟨_, _, begins_parts hfiled.parts hfiled.headers, fun _ => hbegins, ?_⟩
        rw [← hfiled.blocks, List.append_assoc]
      simp only [hok, Bool.not_true, Bool.false_eq_true, if_false]
      cases hgood : (r.2.file.write data o.transfer).good with
      | false =>
        simp only [Bool.not_false, if_true, Bool.false_eq_true, false_implies, true_and]
        exact hspoilt
      | true =>
        simp only [Bool.not_true, Bool.false_eq_true, if_false]
        suffices hnext : Filed cfg (given ++ [data]) _ from ⟨fun _ => hnext, hnext.torn⟩
        refine ⟨⟨?_, hfiled.closed, ?_, hfiled.parts⟩, hfiled.header, hfiled.headers, ?_⟩
        · exact (BufferedStream.write_isOpen _ _ _).trans hfiled.isOpen
        · show (r.2.file.write data o.transfer).written =
            r.2.header ++ (r.2.blocks ++ [data]).flatten
          rw [(BufferedStream.write_good hgood).2.2, hfiled.written, List.flatten_append,
            List.flatten_singleton, List.append_assoc]
        · rw [← hfiled.blocks, List.append_assoc]

theorem openFirst_filed {o : Opening} (h : (openFirst cfg o {}).1 = true) :
    Filed cfg [] (openFirst cfg o {}).2 := by
  obtain ⟨hready, _⟩ := openFirst_spec h
  obtain ⟨_, _, _, hblocks, hparts, _⟩ := openCycle_spec h
  have hnone : (openFirst cfg o {}).2.parts = [] := hparts
  have hheader : MayHead cfg (openFirst cfg o {}).2.header := by
    unfold openFirst openCycle
    split
    · exact .inl rfl
    · dsimp only
      split
      · exact .inl rfl
      · split
        · split
          · exact .inl rfl
          · exact .inr rfl
        · exact .inl rfl
  refine ⟨hready, hheader, ?_, ?_⟩
  · rw [hnone]
    exact fun p hp => absurd hp List.not_mem_nil
  · rw [hnone]
    exact hblocks

end RawFileWriter

namespace WriterLoop

open RawFileWriter

variable {cfg : WriterConfig}

theorem turn_filed {given : List RawBlock} {l : WriterLoop} (hok : l.writerFailed = false)
    (h : Filed cfg given l.writer) (t : Turn) :
    ((turn cfg l t).writerFailed = false →
        Filed cfg (given ++ filled t.block.toList) (turn cfg l t).writer) ∧
      Torn cfg (given ++ filled t.block.toList) (turn cfg l t).writer := by
  have hflush : ∀ {given : List RawBlock} {l : WriterLoop}, Filed cfg given l.writer →
      Filed cfg given (flushIfDue t l).writer := by
    intro given l h
    unfold flushIfDue
    split
    · exact flush_filed h t.flush
    · exact h
  have hbefore : ¬l.writerFailed = true := by simp [hok]
  unfold turn
  rw [if_neg hbefore]
  cases hblock : t.block with
  | none =>
    have hnone : given ++ filled (none : Option RawBlock).toList = given := List.append_nil _
    rw [hnone]
    exact ⟨fun _ => hflush h, (hflush h).torn⟩
  | some block =>
    obtain ⟨hfiled, htorn⟩ := write_filed h block t.writing
    rw [Option.toList_some]
    cases hwritten : (write cfg block t.writing l.writer).1 with
    | false =>
      simp only [hwritten, Bool.not_false, if_true]
      exact ⟨fun hno => absurd hno.symm Bool.false_ne_true, htorn⟩
    | true =>
      simp only [hwritten, Bool.not_true, Bool.false_eq_true, if_false]
      suffices hnext : Filed cfg (given ++ filled [block]) _ from ⟨fun _ => hnext, hnext.torn⟩
      exact hflush (hfiled hwritten)

end WriterLoop

namespace FiledBlocks

open Readout Delivery RawFileWriter

variable {n : ℕ} {cfg : WriterConfig}

def accepted (fates : List (RawBlock × Bool)) : List RawBlock := (fates.filter (·.2)).map (·.1)

def bytes (given : List (Fin n × RawBlock)) : List RawBlock := filled (given.map (·.2))

theorem bytes_append (xs ys : List (Fin n × RawBlock)) :
    bytes (xs ++ ys) = bytes xs ++ bytes ys := by
  rw [bytes, List.map_append, filled, List.filter_append]
  rfl

/-- Whatever the file system answers: what was given to the writer, what it holds and what
waits for it are the blocks that were accepted, and the files have been made of the first. -/
structure Stocked (cfg : WriterConfig) (given : List (Fin n × RawBlock)) (t : Traffic n) :
    Prop where
  pipeline : ∀ i, accepted (t.fates i) = ofBoard i (given ++ held t.writerPc ++ t.items)
  torn : Torn cfg (bytes given) t.loop.writer
  written : t.loop.writerFailed = false → given = t.written
  filed : t.loop.writerFailed = false → t.loop.writer.closed = false →
    Filed cfg (bytes given) t.loop.writer
  shelved : t.loop.writerFailed = false → t.loop.writer.closed = true →
    Shelved cfg (bytes given) t.loop.writer
  busy : t.writerPc ≠ .returned → t.loop.writerFailed = false ∧ t.loop.writer.closed = false

theorem Stocked.answered {given : List (Fin n × RawBlock)} {t : Traffic n}
    (h : Stocked cfg given t) (i : Fin n) (block : RawBlock) (answer : Bool) :
    Stocked cfg given { t with
      fates := Function.update t.fates i (t.fates i ++ [(block, answer)])
      items := t.items ++ if answer then [(i, block)] else [] } := by
  refine ⟨fun j => ?_, h.torn, h.written, h.filed, h.shelved, h.busy⟩
  show accepted (Function.update t.fates i _ j) =
    ofBoard j (given ++ held t.writerPc ++ (t.items ++ _))
  rw [← List.append_assoc, ofBoard_append, ← h.pipeline j]
  by_cases hj : j = i
  · subst hj
    rw [Function.update_self, accepted, List.filter_append, List.map_append]
    cases answer with
    | false => rfl
    | true => simp [accepted, ofBoard]
  · rw [Function.update_of_ne hj]
    cases answer with
    | false => exact (List.append_nil _).symm
    | true => simp [ofBoard, Ne.symm hj]

theorem Stocked.wrote {given : List (Fin n × RawBlock)} {t : Traffic n} (h : Stocked cfg given t)
    {block : Fin n × RawBlock} (hholding : t.writerPc = .holding block) (turn : Turn) :
    let loop := WriterLoop.turn cfg t.loop { turn with block := some block.2 }
    Stocked cfg (given ++ [block]) { t with
      loop := loop
      writerPc := if loop.writerFailed then .returned else .popping
      written := if loop.writerFailed then t.written else t.written ++ [block] } := by
  intro loop
  obtain ⟨hok, hopen⟩ := h.busy (by rw [hholding]; nofun)
  obtain ⟨hfiled, htorn⟩ := WriterLoop.turn_filed hok (h.filed hok hopen)
    { turn with block := some block.2 }
  have hbytes : bytes (given ++ [block]) =
      bytes given ++ filled (some block.2).toList := bytes_append given [block]
  rw [← hbytes] at hfiled htorn
  have hnone : held (if loop.writerFailed then .returned else (.popping : WriterPc n)) = [] := by
    split <;> rfl
  refine ⟨fun i => ?_, htorn, fun hgood => ?_, fun hgood _ => hfiled hgood,
    fun hgood hclosed => ?_, fun hpc => ?_⟩
  · rw [h.pipeline i, hholding]
    show _ = ofBoard i (given ++ [block] ++ held (if loop.writerFailed then _ else _) ++ t.items)
    rw [hnone, List.append_nil]
    rfl
  · change loop.writerFailed = false at hgood
    simp only [hgood, Bool.false_eq_true, if_false, h.written hok]
  · have hbusy := (hfiled hgood).closed
    exact absurd (hclosed.symm.trans hbusy) Bool.noConfusion
  · have hgood : loop.writerFailed = false := by
      by_contra hfailed
      exact hpc (if_pos (eq_true_of_ne_false hfailed))
    exact ⟨hgood, (hfiled hgood).closed⟩

theorem Stocked.closed {given : List (Fin n × RawBlock)} {t : Traffic n} (h : Stocked cfg given t)
    (hreturned : t.writerPc = .returned) (flush close : Transfer) :
    Stocked cfg given { t with loop := t.loop.teardown flush close } := by
  have hshelved : t.loop.writerFailed = false →
      Shelved cfg (bytes given) (t.loop.teardown flush close).writer := by
    intro hok
    cases hclosed : t.loop.writer.closed with
    | false => exact close_shelved (h.filed hok hclosed) flush close
    | true =>
      have hsame : (t.loop.teardown flush close).writer = t.loop.writer := if_pos hclosed
      rw [hsame]
      exact h.shelved hok hclosed
  refine ⟨h.pipeline, close_torn h.torn flush close, h.written, fun hok hopen => ?_,
    fun hok _ => hshelved hok, fun hpc => absurd hreturned hpc⟩
  have hclosed : (RawFileWriter.close flush close t.loop.writer).closed = true := by
    unfold RawFileWriter.close
    split
    · next hclosed => exact hclosed
    · rfl
  exact absurd (hclosed.symm.trans hopen) Bool.noConfusion

/-- Each step keeps the files stocked; only the writer adds to what it was given. -/
theorem step_stocked {s s' : Readout n} {a : Action n} {given : List (Fin n × RawBlock)}
    (h : Stocked cfg given s.traffic) (hstep : s.step cfg a = some s') :
    ∃ more, Stocked cfg (given ++ more) s'.traffic := by
  have hkeep : ∀ {t : Traffic n}, Stocked cfg given t → ∃ more, Stocked cfg (given ++ more) t :=
    fun h => ⟨[], by rwa [List.append_nil]⟩
  cases step_effect hstep with
  | quiet htraffic =>
    rw [htraffic]
    exact hkeep h
  | answered i block answer htraffic =>
    rw [htraffic]
    exact hkeep (h.answered i block answer)
  | popped block rest hpopping hitems htraffic =>
    rw [htraffic]
    have hpc : s.traffic.writerPc = .popping := hpopping
    have hqueue : s.traffic.items = block :: rest := hitems
    refine hkeep ⟨fun i => ?_, h.torn, h.written, h.filed, h.shelved, fun _ => h.busy ?_⟩
    · have hpipeline := h.pipeline i
      rw [hpc, hqueue] at hpipeline
      rw [hpipeline]
      show ofBoard i (given ++ [] ++ block :: rest) = ofBoard i (given ++ [block] ++ rest)
      rw [List.append_nil, List.append_assoc]
      rfl
    · rw [hpc]
      nofun
  | wrote block turn hholding htraffic =>
    rw [htraffic]
    exact ⟨[block], h.wrote hholding turn⟩
  | idled turn hpopping htraffic =>
    rw [htraffic]
    have hpc : s.traffic.writerPc = .popping := hpopping
    obtain ⟨hok, hopen⟩ := h.busy (by rw [hpc]; nofun)
    obtain ⟨hfiled, htorn⟩ := WriterLoop.turn_filed hok (h.filed hok hopen)
      { turn with block := none }
    have hbytes : bytes given ++ filled (none : Option RawBlock).toList = bytes given :=
      List.append_nil _
    rw [hbytes] at hfiled htorn
    have hgood : (WriterLoop.turn cfg s.loop { turn with block := none }).writerFailed = false := by
      have hbefore : ¬s.loop.writerFailed = true := by
        change s.loop.writerFailed = false at hok
        simp [hok]
      rw [WriterLoop.turn, if_neg hbefore]
      exact (WriterLoop.flushIfDue_failed _ _).trans hok
    have hclosed := (hfiled hgood).closed
    exact hkeep ⟨h.pipeline, htorn, fun _ => h.written hok, fun hgood _ => hfiled hgood,
      fun _ hyes => absurd (hyes.symm.trans hclosed) Bool.noConfusion, fun _ => ⟨hgood, hclosed⟩⟩
  | returned hpopping hitems htraffic =>
    rw [htraffic]
    have hpc : s.traffic.writerPc = .popping := hpopping
    refine hkeep ⟨fun i => ?_, h.torn, h.written, h.filed, h.shelved, fun hno => absurd rfl hno⟩
    have hpipeline := h.pipeline i
    rw [hpc] at hpipeline
    exact hpipeline
  | closed flush close hreturned htraffic =>
    rw [htraffic]
    exact hkeep (h.closed hreturned flush close)

theorem run_stocked {s s' : Readout n} {given : List (Fin n × RawBlock)}
    (h : Stocked cfg given s.traffic) {schedule : List (Action n)}
    (hrun : Transition.run (step cfg) s schedule = some s') :
    ∃ more, Stocked cfg (given ++ more) s'.traffic := by
  refine Transition.run_invariant (P := fun s => ∃ more, Stocked cfg (given ++ more) s.traffic)
    ?_ ⟨[], by rwa [List.append_nil]⟩ hrun
  rintro s s' a _ ⟨more, hmore⟩ hstep
  obtain ⟨last, hlast⟩ := step_stocked hmore hstep
  exact ⟨more ++ last, by rwa [List.append_assoc] at hlast⟩

theorem ofDaq_stocked {d : Daq} (h : Recording.Accounts cfg d 1) (hrunning : d.running = true) :
    Stocked cfg [] (ofDaq d).traffic := by
  have hempty : ∀ i, accepted ((ofDaq d).traffic.fates i) =
      ofBoard i ([] ++ held (ofDaq d).traffic.writerPc ++ (ofDaq d).traffic.items) := by
    intro i
    have hheld : held (ofDaq d).traffic.writerPc = [] := by
      show held (if d.draining then WriterPc.popping else WriterPc.returned) = []
      split <;> rfl
    rw [hheld]
    rfl
  have hopen : d.writeQueue.closed = false := by
    have hclosed := h.closed
    rw [hrunning, if_pos rfl] at hclosed
    exact eq_false_of_ne_true fun hc => absurd (hclosed.mp hc) (Nat.lt_irrefl 1)
  have hok : (ofDaq d).loop.writerFailed = false := h.writerFailed
  cases hany : d.anyWrite with
  | true =>
    obtain ⟨o, hopened, hwriter⟩ := h.writer (h.prepared hrunning) hany hopen
    have hfiled : Filed cfg [] (ofDaq d).traffic.loop.writer := by
      simp only [traffic, ofDaq, hwriter, Option.getD_some]
      exact openFirst_filed hopened
    exact ⟨hempty, hfiled.torn, fun _ => rfl, fun _ _ => hfiled,
      fun _ hyes => absurd (hyes.symm.trans hfiled.closed) Bool.noConfusion,
      fun _ => ⟨hok, hfiled.closed⟩⟩
  | false =>
    obtain ⟨hwriter, hdraining⟩ := h.silent hany
    have hnew : (ofDaq d).traffic.loop.writer = {} := by
      simp only [traffic, ofDaq, hwriter, Option.getD_none]
    have hshelved : Shelved cfg [] (ofDaq d).traffic.loop.writer := by
      rw [hnew]
      exact ⟨fun p hp => absurd hp List.not_mem_nil, fun p hp => absurd hp List.not_mem_nil, rfl,
        rfl⟩
    refine ⟨hempty, hshelved.torn, fun _ => rfl, fun _ hno => ?_, fun _ _ => hshelved,
      fun hpc => absurd ?_ hpc⟩
    · rw [hnew] at hno
      cases hno
    · show (if d.draining then WriterPc.popping else WriterPc.returned) = _
      rw [hdraining, if_neg Bool.false_ne_true]

end FiledBlocks
end CaenDaq
