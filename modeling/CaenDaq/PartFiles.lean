import CaenDaq.DataFileHeader
import CaenDaq.PartNames
import CaenDaq.Daq

/-!
# The part files of a run

`RawFileWriter` decides where one part ends and the next begins, `PartNames` where each
of them is put. Here the two go together: the files that a run leaves in the directory,
and what a reader finds in them.
-/

namespace CaenDaq
namespace RawFileWriter

variable {cfg : WriterConfig}

def firstHeader (cfg : WriterConfig) : List (BitVec 8) := if cfg.writeHeader then cfg.header else []

/-- A part is as long as the limit has it, unless one block alone is longer, or nothing
but the header is in it. -/
def Within (cfg : WriterConfig) (p : Part) : Prop :=
  cfg.maxFileBytes ≠ 0 →
    p.content.length ≤ cfg.maxFileBytes ∨ p.blocks = [] ∨ p.header = [] ∧ ∃ b, p.blocks = [b]

/-- The parts of a run, the current one among them. -/
structure Laid (cfg : WriterConfig) (accepted : List RawBlock) (ps : List Part) : Prop where
  blocks : (ps.map Part.blocks).flatten = accepted
  filled : ∀ b ∈ accepted, b ≠ []
  headers : ∃ n, ps.map Part.header = firstHeader cfg :: List.replicate n []
  content : ∀ p ∈ ps, p.content = p.header ++ p.blocks.flatten
  within : ∀ p ∈ ps, Within cfg p
  single : cfg.maxFileBytes = 0 → ps.length = 1

def partOf (header : List (BitVec 8)) (blocks : List RawBlock) : Part where
  header := header
  blocks := blocks
  content := header ++ blocks.flatten
  carried := true

theorem Laid.start : Laid cfg [] [partOf (firstHeader cfg) []] where
  blocks := rfl
  filled := fun _ h => absurd h List.not_mem_nil
  headers := ⟨0, rfl⟩
  content := fun p h => by rw [List.mem_singleton.mp h]; rfl
  within := fun p h _ => .inr (.inl (by rw [List.mem_singleton.mp h]; rfl))
  single := fun _ => rfl

/-- A block for which there is room goes into the last part. -/
theorem Laid.add {accepted : List RawBlock} {ps : List Part} {header : List (BitVec 8)}
    {blocks : List RawBlock} (h : Laid cfg accepted (ps ++ [partOf header blocks]))
    {data : RawBlock} (hdata : data ≠ [])
    (hroom : cfg.maxFileBytes = 0 ∨
      header.length + blocks.flatten.length + data.length ≤ cfg.maxFileBytes ∨
      header.length + blocks.flatten.length = 0) :
    Laid cfg (accepted ++ [data]) (ps ++ [partOf header (blocks ++ [data])]) := by
  have hblocks := h.blocks
  rw [List.map_append, List.flatten_append] at hblocks
  have hlast : ∀ b ∈ blocks, b ≠ [] := by
    intro b hb
    apply h.filled
    rw [← hblocks]
    exact List.mem_append_right _ (List.mem_flatten.mpr ⟨blocks, List.mem_singleton_self _, hb⟩)
  refine ⟨?_, ?_, ?_, ?_, ?_, ?_⟩
  · rw [← hblocks, List.map_append, List.flatten_append, List.append_assoc]
    simp [partOf]
  · intro b hb
    rcases List.mem_append.mp hb with hb | hb
    · exact h.filled b hb
    · rw [List.mem_singleton.mp hb]
      exact hdata
  · obtain ⟨n, hn⟩ := h.headers
    exact ⟨n, by rw [← hn, List.map_append, List.map_append]; rfl⟩
  · intro p hp
    rcases List.mem_append.mp hp with hp | hp
    · exact h.content p (List.mem_append_left _ hp)
    · rw [List.mem_singleton.mp hp]
      rfl
  · intro p hp
    rcases List.mem_append.mp hp with hp | hp
    · exact h.within p (List.mem_append_left _ hp)
    · rw [List.mem_singleton.mp hp]
      intro hmax
      rcases hroom with hzero | hfits | hempty
      · exact absurd hzero hmax
      · left
        simp only [partOf, List.length_append, List.flatten_append, List.flatten_singleton]
        omega
      · -- nothing is in the part: neither a header nor, as no block is empty, a block
        have hheader : header = [] := List.eq_nil_of_length_eq_zero (by omega)
        have hflat : blocks.flatten = [] := List.eq_nil_of_length_eq_zero (by omega)
        have hnone : blocks = [] := by
          apply List.eq_nil_iff_forall_not_mem.mpr
          intro b hb
          exact hlast b hb (List.flatten_eq_nil_iff.mp hflat b hb)
        exact .inr (.inr ⟨hheader, data, by rw [hnone]; rfl⟩)
  · intro hzero
    have hlength := h.single hzero
    rwa [List.length_append, List.length_singleton] at hlength ⊢

/-- A block for which there is none begins a part of its own. -/
theorem Laid.next {accepted : List RawBlock} {ps : List Part} (h : Laid cfg accepted ps)
    (hmax : cfg.maxFileBytes ≠ 0) {data : RawBlock} (hdata : data ≠ []) :
    Laid cfg (accepted ++ [data]) (ps ++ [partOf [] [data]]) := by
  refine ⟨?_, ?_, ?_, ?_, ?_, fun hzero => absurd hzero hmax⟩
  · rw [List.map_append, List.flatten_append, h.blocks]
    rfl
  · intro b hb
    rcases List.mem_append.mp hb with hb | hb
    · exact h.filled b hb
    · rw [List.mem_singleton.mp hb]
      exact hdata
  · obtain ⟨n, hn⟩ := h.headers
    refine ⟨n + 1, ?_⟩
    rw [List.map_append, hn, List.replicate_succ']
    rfl
  · intro p hp
    rcases List.mem_append.mp hp with hp | hp
    · exact h.content p hp
    · rw [List.mem_singleton.mp hp]
      rfl
  · intro p hp
    rcases List.mem_append.mp hp with hp | hp
    · exact h.within p hp
    · rw [List.mem_singleton.mp hp]
      exact fun _ => .inr (.inr ⟨rfl, data, rfl⟩)

def allParts (w : RawFileWriter) : List Part := w.parts ++ [partOf w.header w.blocks]

/-- A writer that never met a failure, with the counters that its rotation goes by. -/
structure Placed (cfg : WriterConfig) (accepted : List RawBlock) (w : RawFileWriter) : Prop where
  flawless : w.Flawless
  laid : Laid cfg accepted w.allParts
  fileBytes : w.fileBytes = w.header.length + w.blocks.flatten.length
  totalBytes : w.totalBytes = accepted.flatten.length
  cycle : w.cycle = w.parts.length

theorem close_content {w : RawFileWriter} (hw : w.Ready) {t : Transfer} (ht : t.ok = true) :
    (w.file.close t).device = w.header ++ w.blocks.flatten := by
  rw [← hw.written]
  exact (BufferedStream.close_device hw.isOpen t).2.mpr (.inr ht)

theorem closeFile_parts {w : RawFileWriter} (hw : w.Ready) {t : Transfer} (ht : t.ok = true) :
    (closeFile t w).parts = w.allParts := by
  have hcarried : (decide (w.file.buffer = []) || t.ok) = true := by
    rw [ht, Bool.or_true]
  simp only [closeFile, hw.isOpen, if_true, close_content hw ht, hcarried]
  rfl

theorem close_fine {w : RawFileWriter} (hw : w.Ready) (t : Transfer) {t' : Transfer}
    (ht' : t'.ok = true) :
    (close t t' w).parts = w.allParts ∧
      (close t t' w).file.device = w.header ++ w.blocks.flatten := by
  have hopen : ¬w.closed = true := by simp [hw.closed]
  have hflushed : Ready { w with file := w.file.flush t } :=
    ⟨by rw [BufferedStream.flush_isOpen, hw.isOpen], hw.closed,
      by rw [BufferedStream.flush_written, hw.written], hw.parts⟩
  rw [close, if_neg hopen]
  simp only [hw.isOpen, if_true]
  exact ⟨closeFile_parts hflushed ht', close_content hflushed ht'⟩

theorem openFirst_placed (cfg : WriterConfig) {o : Opening} (ho : o.Fine) :
    (openFirst cfg o {}).1 = true ∧ Placed cfg [] (openFirst cfg o {}).2 ∧
      (openFirst cfg o {}).2.parts = [] := by
  have hok : (openFirst cfg o {}).1 = true := by
    cases hheader : cfg.writeHeader <;>
      simp [openFirst, openCycle, closeFile, BufferedStream.close,
        BufferedStream.openFile, BufferedStream.write, BufferedStream.transfer, ho.directory,
        ho.opened, ho.header, hheader]
  have hstate : (openFirst cfg o {}).2.header = firstHeader cfg ∧
      (openFirst cfg o {}).2.blocks = [] ∧ (openFirst cfg o {}).2.parts = [] ∧
      (openFirst cfg o {}).2.fileBytes = (firstHeader cfg).length ∧
      (openFirst cfg o {}).2.totalBytes = 0 ∧ (openFirst cfg o {}).2.cycle = 0 := by
    cases hheader : cfg.writeHeader <;>
      simp [openFirst, openCycle, closeFile, BufferedStream.close,
        BufferedStream.openFile, BufferedStream.write, BufferedStream.transfer, ho.directory,
        ho.opened, ho.header, hheader, firstHeader]
  obtain ⟨hheader, hblocks, hparts, hfileBytes, htotal, hcycle⟩ := hstate
  refine ⟨hok, ⟨openFirst_flawless hok, ?_, ?_, htotal, ?_⟩, hparts⟩
  · rw [allParts, hheader, hblocks, hparts]
    exact Laid.start
  · rw [hheader, hblocks, hfileBytes]
    rfl
  · rw [hcycle, hparts]
    rfl

/-- A rotation closes the part with all that is in it and opens an empty one. -/
theorem rotate_fine {w : RawFileWriter} (hw : w.Ready) {len : ℕ} {o : Opening} (ho : o.Fine)
    (hrotates : rotates cfg len w = true) :
    (rotate cfg len o w).2.parts = w.allParts ∧ (rotate cfg len o w).2.header = [] ∧
      (rotate cfg len o w).2.blocks = [] ∧ (rotate cfg len o w).2.fileBytes = 0 ∧
      (rotate cfg len o w).2.cycle = w.cycle + 1 ∧
      (rotate cfg len o w).2.totalBytes = w.totalBytes := by
  have hready : Ready { w with cycle := w.cycle + 1 } := ⟨hw.1, hw.2, hw.3, hw.4⟩
  have hparts := closeFile_parts hready ho.closing
  rw [rotate, if_pos hrotates]
  simp only [openCycle, ho.directory, ho.opened, BufferedStream.openFile, Bool.not_true,
    Bool.false_eq_true, if_false, if_true, Bool.false_and]
  exact ⟨hparts, by simp [closeFile]⟩

theorem write_fine (cfg : WriterConfig) {w : RawFileWriter} (hw : w.Flawless) {data : RawBlock}
    {o : Writing} (ho : o.Fine) (hdata : data ≠ []) :
    (write cfg data o w).2 = (rotate cfg data.length o.rotation w).2.took data
      ((rotate cfg data.length o.rotation w).2.file.write data o.transfer) := by
  rcases write_cases hw.closed (write_flawless hw ho).1 with ⟨hempty, _⟩ | ⟨_, _, _, heq⟩
  · exact absurd hempty hdata
  · exact heq

/-- The blocks that count: an empty one is not written at all. -/
def filled (blocks : List RawBlock) : List RawBlock := blocks.filter (· ≠ [])

theorem filled_flatten (blocks : List RawBlock) : (filled blocks).flatten = blocks.flatten := by
  induction blocks with
  | nil => rfl
  | cons b blocks ih =>
    by_cases hb : b = []
    · rw [filled, List.filter_cons_of_neg (by simp [hb]), ← filled, ih, hb]
      rfl
    · rw [filled, List.filter_cons_of_pos (by simp [hb]), ← filled, List.flatten_cons, ih,
        List.flatten_cons]

theorem write_placed {accepted : List RawBlock} {w : RawFileWriter} (hw : Placed cfg accepted w)
    (data : RawBlock) {o : Writing} (ho : o.Fine) :
    Placed cfg (accepted ++ filled [data]) (write cfg data o w).2 := by
  have hwritten : (write cfg data o w).1 = true ∧ Flawless (write cfg data o w).2 :=
    write_flawless hw.flawless ho
  obtain ⟨hok, hflawless⟩ := hwritten
  by_cases hdata : data = []
  · rcases write_cases hw.flawless.closed hok with ⟨_, heq⟩ | ⟨hne, _⟩
    · have hfilled : filled [data] = [] := by simp [filled, hdata]
      rw [heq, hfilled, List.append_nil]
      exact hw
    · exact absurd hdata hne
  · have hfilled : filled [data] = [data] := by simp [filled, hdata]
    have hflatten : (accepted ++ [data]).flatten.length = accepted.flatten.length + data.length := by
      rw [List.flatten_append, List.flatten_singleton, List.length_append]
    have hwrite := write_fine cfg hw.flawless ho hdata
    rw [hwrite] at hflawless ⊢
    rw [hfilled]
    by_cases hrotates : rotates cfg data.length w = true
    · obtain ⟨hparts, hheader, hblocks, hfileBytes, hcycle, htotal⟩ :=
        rotate_fine hw.flawless.toReady ho.rotation hrotates
      generalize rotate cfg data.length o.rotation w = r at *
      have hmax : cfg.maxFileBytes ≠ 0 := by
        simp only [rotates, ne_eq, Bool.and_eq_true, decide_eq_true_eq] at hrotates
        exact hrotates.1.1
      refine ⟨hflawless, ?_, ?_, ?_, ?_⟩
      · have hlaid := hw.laid.next hmax hdata
        rwa [allParts, took, hparts, hheader, hblocks]
      · simp only [took, hfileBytes, hheader, hblocks]
        simp
      · rw [hflatten, ← hw.totalBytes, ← htotal]
        rfl
      · show r.2.cycle = r.2.parts.length
        rw [hcycle, hparts, hw.cycle, allParts, List.length_append]
        rfl
    · have hstay : rotate cfg data.length o.rotation w = (true, w) := by
        rw [rotate, if_neg hrotates]
      have hroom : cfg.maxFileBytes = 0 ∨
          w.header.length + w.blocks.flatten.length + data.length ≤ cfg.maxFileBytes ∨
          w.header.length + w.blocks.flatten.length = 0 := by
        have hfileBytes := hw.fileBytes
        simp only [rotates, ne_eq, Bool.and_eq_true, decide_eq_true_eq, not_and] at hrotates
        omega
      rw [hstay] at hflawless ⊢
      refine ⟨hflawless, hw.laid.add hdata hroom, ?_, ?_, hw.cycle⟩
      · simp only [took, hw.fileBytes, List.flatten_append, List.length_append,
          List.flatten_singleton]
        omega
      · rw [hflatten, ← hw.totalBytes]
        rfl

end RawFileWriter

open PartNames RawFileWriter

/-- A writer with the directory that its files are in: the file it has open, and all that
it has opened, in the order of their cycles. -/
structure Recorder where
  writer : RawFileWriter := {}
  files : Directory
  path : String := ""
  paths : List String := []

namespace Recorder

variable (cfg : WriterConfig) (runNumber : ℕ)

/-- What the stream has brought over is in the open file. -/
def store (file : BufferedStream (BitVec 8)) (s : Recorder) : Recorder :=
  if s.writer.file.isOpen then
    { s with files := Function.update s.files s.path (some file.device) }
  else s

/-- The files in an `openCycle` that leaves the writer `after`. The name is chosen while
the file before is still open. -/
def openPart (o : Opening) (after : RawFileWriter) (s : Recorder) : Recorder :=
  let path := uniquePath runNumber s.files after.cycle
  if !o.directory then { s with writer := after }
  else
    let s := store (s.writer.file.close o.closing) s
    if !o.opened then { s with writer := after }
    else
      { writer := after
        files := Function.update s.files path (some after.file.device)
        path := path
        paths := s.paths ++ [path] }

def openFirst (o : Opening) (s : Recorder) : Bool × Recorder :=
  let r := RawFileWriter.openFirst cfg o s.writer
  (r.1, openPart runNumber o r.2 s)

def rotatePart (data : RawBlock) (o : Opening) (s : Recorder) : Recorder :=
  if !s.writer.closed && data.length ≠ 0 && rotates cfg data.length s.writer then
    openPart runNumber o (rotate cfg data.length o s.writer).2 s
  else s

def write (data : RawBlock) (o : Writing) (s : Recorder) : Bool × Recorder :=
  let r := RawFileWriter.write cfg data o s.writer
  (r.1, { store r.2.file (rotatePart cfg runNumber data o.rotation s) with writer := r.2 })

def writeAll (s : Recorder) : List (RawBlock × Writing) → Recorder
  | [] => s
  | b :: blocks => writeAll (write cfg runNumber b.1 b.2 s).2 blocks

def close (t t' : Transfer) (s : Recorder) : Recorder :=
  let w := RawFileWriter.close t t' s.writer
  { store w.file s with writer := w }

/-- A run of a new writer: its file is opened, the blocks are written, it is closed. -/
def record (before : Directory) (o : Opening) (blocks : List (RawBlock × Writing))
    (t t' : Transfer) : Recorder :=
  close t t' (writeAll cfg runNumber (openFirst cfg runNumber o { files := before }).2 blocks)

structure Kept (before : Directory) (accepted : List RawBlock) (s : Recorder) : Prop where
  placed : Placed cfg accepted s.writer
  current : ∃ names, s.paths = names ++ [s.path]
  stored : Stored runNumber before s.files s.paths
    (s.writer.parts.map Part.content ++ [s.writer.file.device])

variable {cfg runNumber}

theorem Kept.paths_length {before : Directory} {accepted : List RawBlock} {s : Recorder}
    (h : Kept cfg runNumber before accepted s) : s.paths.length = s.writer.cycle + 1 := by
  rw [h.stored.length, List.length_append, List.length_map, h.placed.cycle]
  rfl

theorem store_stored {before : Directory} {s : Recorder} {contents : List (List (BitVec 8))}
    {content : List (BitVec 8)} (hopen : s.writer.file.isOpen = true)
    (hcurrent : ∃ names, s.paths = names ++ [s.path])
    (hstored : Stored runNumber before s.files s.paths (contents ++ [content]))
    (file : BufferedStream (BitVec 8)) :
    Stored runNumber before (store file s).files s.paths (contents ++ [file.device]) := by
  obtain ⟨names, hnames⟩ := hcurrent
  rw [hnames] at hstored ⊢
  rw [store, if_pos hopen]
  exact hstored.extend

@[simp] theorem store_path (file : BufferedStream (BitVec 8)) (s : Recorder) :
    (store file s).path = s.path := by
  unfold store
  split <;> rfl

@[simp] theorem store_paths (file : BufferedStream (BitVec 8)) (s : Recorder) :
    (store file s).paths = s.paths := by
  unfold store
  split <;> rfl

theorem openPart_fine {o : Opening} (ho : o.Fine) (after : RawFileWriter) (s : Recorder) :
    openPart runNumber o after s =
      { writer := after
        files := Function.update (store (s.writer.file.close o.closing) s).files
          (uniquePath runNumber s.files after.cycle) (some after.file.device)
        path := uniquePath runNumber s.files after.cycle
        paths := s.paths ++ [uniquePath runNumber s.files after.cycle] } := by
  simp only [openPart, ho.directory, ho.opened, Bool.not_true, Bool.false_eq_true, if_false,
    store_paths]

theorem openFirst_kept (cfg : WriterConfig) {before : Directory} {o : Opening} (ho : o.Fine)
    (hleaves : Leaves runNumber before 0) :
    Kept cfg runNumber before [] (openFirst cfg runNumber o { files := before }).2 ∧
      (openFirst cfg runNumber o { files := before }).2.writer.cycle = 0 := by
  obtain ⟨_, hplaced, hparts⟩ := openFirst_placed cfg ho
  have hcycle : (RawFileWriter.openFirst cfg o {}).2.cycle = 0 := by
    rw [hplaced.cycle, hparts]
    rfl
  have hopened : (openFirst cfg runNumber o { files := before }).2 =
      { writer := (RawFileWriter.openFirst cfg o {}).2
        files := Function.update before (uniquePath runNumber before 0)
          (some (RawFileWriter.openFirst cfg o {}).2.file.device)
        path := uniquePath runNumber before 0
        paths := [uniquePath runNumber before 0] } := by
    rw [openFirst, openPart_fine ho, hcycle]
    rfl
  rw [hopened]
  refine ⟨⟨hplaced, ⟨[], rfl⟩, ?_⟩, hcycle⟩
  rw [hparts]
  exact (Stored.start before).create hleaves _

theorem rotatePart_stored {before : Directory} {accepted : List RawBlock} {s : Recorder}
    (h : Kept cfg runNumber before accepted s) {data : RawBlock} (hdata : data ≠ [])
    {o : Opening} (ho : o.Fine) (hleaves : Leaves runNumber before (s.writer.cycle + 1)) :
    let r := (rotate cfg data.length o s.writer).2
    let s' := rotatePart cfg runNumber data o s
    s'.writer = r ∧ (∃ names, s'.paths = names ++ [s'.path]) ∧
      Stored runNumber before s'.files s'.paths (r.parts.map Part.content ++ [r.file.device]) ∧
      r.cycle ≤ s.writer.cycle + 1 := by
  have hready := h.placed.flawless.toReady
  have hlength : data.length ≠ 0 := fun hzero => hdata (List.eq_nil_of_length_eq_zero hzero)
  by_cases hrotates : rotates cfg data.length s.writer = true
  · obtain ⟨hparts, _, _, _, hcycle, _⟩ := rotate_fine hready ho hrotates
    have hcond : (!s.writer.closed && decide (data.length ≠ 0) &&
        rotates cfg data.length s.writer) = true := by
      simp [hready.closed, hlength, hrotates]
    have hclosed : Stored runNumber before (store (s.writer.file.close o.closing) s).files s.paths
        (s.writer.allParts.map Part.content) := by
      have hstored := store_stored hready.isOpen h.current h.stored (s.writer.file.close o.closing)
      rw [close_content hready ho.closing] at hstored
      rw [allParts, List.map_append]
      exact hstored
    rw [rotatePart, if_pos hcond, openPart_fine ho]
    generalize rotate cfg data.length o s.writer = r at *
    have hnext : r.2.cycle = s.paths.length := by rw [hcycle, h.paths_length]
    have hname : uniquePath runNumber s.files r.2.cycle =
        uniquePath runNumber (store (s.writer.file.close o.closing) s).files s.paths.length := by
      rw [hnext]
      refine uniquePath_congr (fun name => ?_) _
      by_cases hmem : name ∈ s.paths
      · rw [h.stored.exists hmem, hclosed.exists hmem]
      · rw [h.stored.untouched name hmem, hclosed.untouched name hmem]
    have hcreated := hclosed.create (by rwa [h.paths_length]) r.2.file.device
    rw [← hname, ← hparts] at hcreated
    exact ⟨rfl, ⟨s.paths, rfl⟩, hcreated, hcycle.le⟩
  · have hstay : rotate cfg data.length o s.writer = (true, s.writer) := by
      rw [rotate, if_neg hrotates]
    have hcond : ¬(!s.writer.closed && decide (data.length ≠ 0) &&
        rotates cfg data.length s.writer) = true := by
      simp [hrotates]
    rw [rotatePart, if_neg hcond, hstay]
    exact ⟨rfl, h.current, h.stored, Nat.le_succ _⟩

theorem write_kept {before : Directory} {accepted : List RawBlock} {s : Recorder}
    (h : Kept cfg runNumber before accepted s) (data : RawBlock) {o : Writing} (ho : o.Fine)
    (hleaves : Leaves runNumber before (s.writer.cycle + 1)) :
    Kept cfg runNumber before (accepted ++ filled [data]) (write cfg runNumber data o s).2 ∧
      (write cfg runNumber data o s).2.writer.cycle ≤ s.writer.cycle + 1 := by
  have hready := h.placed.flawless.toReady
  have hplaced := write_placed h.placed data ho
  by_cases hdata : data = []
  · have hwrite : RawFileWriter.write cfg data o s.writer = (true, s.writer) := by
      simp [RawFileWriter.write, hready.closed, hdata]
    have hhead : rotatePart cfg runNumber data o.rotation s = s := by
      simp [rotatePart, hdata]
    rw [hwrite] at hplaced
    rw [write, hwrite, hhead]
    refine ⟨⟨hplaced, ?_, ?_⟩, Nat.le_succ _⟩
    · simp only [store_paths, store_path]
      exact h.current
    · simp only [store_paths]
      exact store_stored hready.isOpen h.current h.stored _
  · obtain ⟨hwriter, hcurrent, hstored, hcycle⟩ := rotatePart_stored h hdata ho.rotation hleaves
    have hrotated : (rotate cfg data.length o.rotation s.writer).2.Flawless :=
      (rotate_flawless h.placed.flawless ho.rotation).2
    have hwrite := write_fine cfg h.placed.flawless ho hdata
    refine ⟨⟨hplaced, ?_, ?_⟩, ?_⟩
    · simp only [write, store_paths, store_path]
      exact hcurrent
    · simp only [write, store_paths, hwrite]
      exact store_stored (by rw [hwriter]; exact hrotated.isOpen) hcurrent hstored _
    · simp only [write, hwrite]
      exact hcycle

theorem writeAll_kept {before : Directory} {accepted : List RawBlock} {s : Recorder}
    (h : Kept cfg runNumber before accepted s) {blocks : List (RawBlock × Writing)}
    (hfine : ∀ b ∈ blocks, b.2.Fine)
    (hleaves : ∀ cycle ≤ s.writer.cycle + blocks.length, Leaves runNumber before cycle) :
    Kept cfg runNumber before (accepted ++ filled (blocks.map Prod.fst))
      (writeAll cfg runNumber s blocks) := by
  induction blocks generalizing accepted s with
  | nil =>
    rw [List.map_nil, filled, List.filter_nil, List.append_nil]
    exact h
  | cons b blocks ih =>
    rw [List.length_cons] at hleaves
    obtain ⟨hkept, hcycle⟩ := write_kept h b.1 (hfine b List.mem_cons_self)
      (hleaves _ (by omega))
    have hrest := ih hkept (fun c hc => hfine c (List.mem_cons_of_mem _ hc))
      fun cycle hle => hleaves cycle (by omega)
    have hfilled : filled ((b :: blocks).map Prod.fst) =
        filled [b.1] ++ filled (blocks.map Prod.fst) := by
      rw [filled, filled, filled, ← List.filter_append]
      rfl
    rw [hfilled, ← List.append_assoc]
    exact hrest

/-- A run that is over: its blocks are in place, its parts are all closed and in the
directory. -/
structure Finished (cfg : WriterConfig) (runNumber : ℕ) (before : Directory)
    (accepted : List RawBlock) (s : Recorder) : Prop where
  laid : Laid cfg accepted s.writer.parts
  stored : Stored runNumber before s.files s.paths (s.writer.parts.map Part.content)
  totalBytes : s.writer.totalBytes = accepted.flatten.length

theorem close_finished {before : Directory} {accepted : List RawBlock} {s : Recorder}
    (h : Kept cfg runNumber before accepted s) (t : Transfer) {t' : Transfer}
    (ht' : t'.ok = true) : Finished cfg runNumber before accepted (close t t' s) := by
  have hready := h.placed.flawless.toReady
  obtain ⟨hparts, hdevice⟩ := close_fine hready t ht'
  obtain ⟨_, _, htotal⟩ := close_spec hready t t'
  refine ⟨?_, ?_, ?_⟩
  · simp only [close, hparts]
    exact h.placed.laid
  · have hstored := store_stored hready.isOpen h.current h.stored
      (RawFileWriter.close t t' s.writer).file
    rw [hdevice] at hstored
    simp only [close, hparts, store_paths, allParts, List.map_append]
    exact hstored
  · simp only [close, htotal]
    exact h.placed.totalBytes

theorem record_finished (cfg : WriterConfig) {before : Directory} {o : Opening} (ho : o.Fine)
    {blocks : List (RawBlock × Writing)} (hfine : ∀ b ∈ blocks, b.2.Fine)
    (hleaves : ∀ cycle ≤ blocks.length, Leaves runNumber before cycle) (t : Transfer)
    {t' : Transfer} (ht' : t'.ok = true) :
    Finished cfg runNumber before (filled (blocks.map Prod.fst))
      (record cfg runNumber before o blocks t t') := by
  obtain ⟨hkept, hcycle⟩ :=
    openFirst_kept cfg ho (hleaves 0 (Nat.zero_le _))
  have hall := writeAll_kept hkept hfine (by rwa [hcycle, Nat.zero_add])
  rw [List.nil_append] at hall
  exact close_finished hall t ht'

open DataFileHeader BoardStream

def writerConfig (maxFileBytes : ℕ) (writeHeader : Bool) (boards : List XdaqBoardDef)
    (epochStartTime : Word) : WriterConfig where
  maxFileBytes := maxFileBytes
  writeHeader := writeHeader
  header := bytesOf (buildXdaqHeader boards epochStartTime)

/-- The files of a run, read back. `data` is what was given to `write`, block by block,
`first` and `rest` are the part files. -/
structure ReadsBack (cfg : WriterConfig) (runNumber : ℕ) (boards : List XdaqBoardDef)
    (epochStartTime : Word) (before : Directory) (data : List RawBlock) (first : List (BitVec 8))
    (rest : List (List (BitVec 8))) (s : Recorder) : Prop where
  onDisk : s.paths.map s.files = (first :: rest).map some
  inOrder : ∀ i (h : i < s.paths.length), s.paths[i] ∈ candidates runNumber i
  withHeader : cfg.writeHeader = true → ∃ payload,
    readRunFile first = some ⟨boards, 0, 0, epochStartTime, payload⟩ ∧
      payload ++ rest.flatten = data.flatten
  withoutHeader : cfg.writeHeader = false → first ++ rest.flatten = data.flatten
  /-- Each part is made of whole blocks. -/
  whole : ∃ (blocks : List RawBlock) (others : List (List RawBlock)),
    first = firstHeader cfg ++ blocks.flatten ∧ rest = others.map List.flatten ∧
      blocks ++ others.flatten = filled data
  limit : cfg.maxFileBytes ≠ 0 → ∀ part ∈ first :: rest,
    part.length ≤ cfg.maxFileBytes ∨ part ∈ data ∨
      cfg.writeHeader = true ∧ part = cfg.header
  single : cfg.maxFileBytes = 0 → rest = []
  fresh : ∀ name ∈ s.paths, before name = none
  untouched : ∀ name, name ∉ s.paths → s.files name = before name
  bytesWritten : s.writer.totalBytes = data.flatten.length

/-- The parts of a finished run: one with the header, and others without. -/
theorem Finished.parts {before : Directory} {accepted : List RawBlock} {s : Recorder}
    (h : Finished cfg runNumber before accepted s) :
    ∃ (p : Part) (ps : List Part), s.writer.parts = p :: ps ∧
      p.content = firstHeader cfg ++ p.blocks.flatten ∧
      ps.map Part.content = (ps.map Part.blocks).map List.flatten ∧
      p.blocks ++ (ps.map Part.blocks).flatten = accepted := by
  obtain ⟨n, hheaders⟩ := h.laid.headers
  have hblocks := h.laid.blocks
  have hcontents := h.laid.content
  cases hparts : s.writer.parts with
  | nil =>
    rw [hparts] at hheaders
    exact absurd hheaders (List.cons_ne_nil _ _).symm
  | cons p ps =>
    rw [hparts] at hheaders hblocks hcontents
    rw [List.map_cons, List.cons.injEq] at hheaders
    obtain ⟨hfirst, hothers⟩ := hheaders
    refine ⟨p, ps, rfl, ?_, ?_, hblocks⟩
    · rw [← hfirst]
      exact hcontents p List.mem_cons_self
    · rw [List.map_map]
      refine List.map_congr_left fun q hq => ?_
      have hnone : q.header = [] := by
        have hmem : q.header ∈ ps.map Part.header := List.mem_map_of_mem hq
        rw [hothers] at hmem
        exact List.eq_of_mem_replicate hmem
      have hcontent := hcontents q (List.mem_cons_of_mem _ hq)
      rw [hnone] at hcontent
      exact hcontent

/-- A part is longer than the limit only with a single block or with just the header. -/
theorem Finished.limit {before : Directory} {data : List RawBlock} {s : Recorder}
    (h : Finished cfg runNumber before (filled data) s) (hmax : cfg.maxFileBytes ≠ 0) {p : Part}
    (hp : p ∈ s.writer.parts) :
    p.content.length ≤ cfg.maxFileBytes ∨ p.content ∈ data ∨
      cfg.writeHeader = true ∧ p.content = cfg.header := by
  have hcontent := h.laid.content p hp
  rcases h.laid.within p hp hmax with hle | hempty | ⟨hheader, b, hsingle⟩
  · exact .inl hle
  · rw [hempty, List.flatten_nil, List.append_nil] at hcontent
    rw [hcontent]
    obtain ⟨n, hheaders⟩ := h.laid.headers
    have hmem : p.header ∈ s.writer.parts.map Part.header := List.mem_map_of_mem hp
    rw [hheaders] at hmem
    cases hwrite : cfg.writeHeader with
    | true =>
      rcases List.mem_cons.mp hmem with hfirst | hother
      · exact .inr (.inr ⟨rfl, by rw [hfirst, firstHeader, if_pos hwrite]⟩)
      · rw [List.eq_of_mem_replicate hother]
        exact .inl (Nat.zero_le _)
    | false =>
      have hnone : p.header = [] := by
        rcases List.mem_cons.mp hmem with hfirst | hother
        · rw [hfirst, firstHeader, hwrite]
          rfl
        · exact List.eq_of_mem_replicate hother
      rw [hnone]
      exact .inl (Nat.zero_le _)
  · rw [hheader, hsingle, List.nil_append, List.flatten_singleton] at hcontent
    have hb : b ∈ (s.writer.parts.map Part.blocks).flatten :=
      List.mem_flatten.mpr ⟨p.blocks, List.mem_map_of_mem hp, by rw [hsingle]; exact List.mem_cons_self⟩
    rw [h.laid.blocks] at hb
    rw [hcontent]
    exact .inr (.inl (List.mem_of_mem_filter hb))

/-- Reading the part files of a run gives back the boards and what was written. -/
theorem part_files_read_back (maxFileBytes : ℕ) (writeHeader : Bool) (runNumber : ℕ)
    (boards : List XdaqBoardDef) (epochStartTime : Word) (before : Directory) (o : Opening)
    (blocks : List (RawBlock × Writing)) (t t' : Transfer)
    (hcount : 6 + boards.length < 2 ^ 32) (hboards : ∀ b ∈ boards, b.Fits)
    (hleaves : ∀ cycle ≤ blocks.length, Leaves runNumber before cycle) (ho : o.Fine)
    (hblocks : ∀ b ∈ blocks, b.2.Fine) (ht' : t'.ok = true) :
    let cfg := writerConfig maxFileBytes writeHeader boards epochStartTime
    ∃ first rest, ReadsBack cfg runNumber boards epochStartTime before (blocks.map Prod.fst)
      first rest (record cfg runNumber before o blocks t t') := by
  intro cfg
  have h := record_finished cfg ho hblocks hleaves t ht'
  obtain ⟨p, ps, hparts, hfirst, hothers, hgroups⟩ := h.parts
  have hstored := h.stored
  have hpayload : p.blocks.flatten ++ (ps.map Part.content).flatten =
      (blocks.map Prod.fst).flatten := by
    rw [hothers, ← List.flatten_flatten, ← List.flatten_append, hgroups, filled_flatten]
  rw [hparts] at hstored
  refine ⟨p.content, ps.map Part.content, hstored.contents, hstored.named, ?_, ?_, ?_, ?_, ?_,
    hstored.fresh, hstored.untouched, ?_⟩
  · intro hwrite
    refine ⟨p.blocks.flatten, ?_, hpayload⟩
    rw [hfirst, firstHeader, if_pos hwrite]
    exact readRunFile_header hcount hboards epochStartTime _
  · intro hwrite
    rw [hfirst, firstHeader, hwrite]
    exact hpayload
  · exact ⟨p.blocks, ps.map Part.blocks, hfirst, hothers, hgroups⟩
  · intro hmax part hpart
    rw [← List.map_cons, ← hparts] at hpart
    obtain ⟨q, hq, rfl⟩ := List.mem_map.mp hpart
    exact h.limit hmax hq
  · intro hzero
    have hsingle := h.laid.single hzero
    rw [hparts, List.length_cons] at hsingle
    have hnone : ps = [] := List.eq_nil_of_length_eq_zero (by omega)
    rw [hnone]
    rfl
  · rw [h.totalBytes, filled_flatten]

/-- Two blocks, each of which fills a part, in a directory that has a file of the name
of the first part. -/
theorem part_files_read_back_numbered :
    let boards : List XdaqBoardDef := [⟨2, 2, 0, 16, 1⟩, ⟨4, 4, 1, 8, 0⟩]
    let before : Directory := Function.update (fun _ => none) (makePath 42 0) (some [0xFF])
    ∃ first rest, ReadsBack (writerConfig 34 true boards 1700000000#32) 42 boards 1700000000#32
      before [[1, 2], [3, 4, 5]] first rest
      (record (writerConfig 34 true boards 1700000000#32) 42 before {}
        [([1, 2], {}), ([3, 4, 5], {})] {} {}) := by
  have hfine : Opening.Fine {} := ⟨rfl, rfl, rfl, rfl⟩
  refine part_files_read_back 34 true 42 [⟨2, 2, 0, 16, 1⟩, ⟨4, 4, 1, 8, 0⟩] 1700000000#32 _ {}
    [([1, 2], {}), ([3, 4, 5], {})] {} {} (by decide) ?_ ?_ hfine ?_ rfl
  · intro b hb
    rcases List.mem_cons.mp hb with rfl | hb
    · exact ⟨by decide, by decide, by decide⟩
    · rw [List.mem_singleton.mp hb]
      exact ⟨by decide, by decide, by decide⟩
  · intro cycle _
    by_cases hzero : cycle = 0
    · refine ⟨numberedPath 42 0 1, hzero ▸ List.mem_cons_of_mem _ ?_, ?_⟩
      · exact List.mem_map_of_mem (List.mem_range'_1.mpr ⟨le_rfl, by decide⟩)
      · exact Function.update_of_ne (by decide) _ _
    · refine ⟨makePath 42 cycle, List.mem_cons_self, Function.update_of_ne ?_ _ _⟩
      intro heq
      have hcycle : cycleOf 42 (makePath 42 cycle) = cycle :=
        cycleOf_candidate List.mem_cons_self
      have hfirst : cycleOf 42 (makePath 42 0) = 0 := cycleOf_candidate List.mem_cons_self
      rw [heq, hfirst] at hcycle
      exact hzero hcycle.symm
  · intro b hb
    rcases List.mem_cons.mp hb with rfl | hb
    · exact ⟨hfine, rfl⟩
    · rw [List.mem_singleton.mp hb]
      exact ⟨hfine, rfl⟩

end Recorder

namespace Daq

open DataFileHeader

/-- What `prepare` gives to the writer as the boards of the header. -/
def boardDefs (d : Daq) : List XdaqBoardDef := d.runners.map fun r => boardDefFrom r.boardInfo

theorem runner_boardInfo {o : Preparation} {r : BoardRunner} (h : (r.prepare o).1 = true) :
    (r.prepare o).2.boardInfo = o.info := by
  unfold BoardRunner.prepare at h ⊢
  split at h
  · exact absurd h Bool.false_ne_true
  · next hopened =>
    rw [if_neg hopened]
    simp only at h ⊢
    split at h
    · exact absurd h Bool.false_ne_true
    · next hconfigured =>
      rw [if_neg hconfigured]

theorem prepareRunners_boardInfo {o : ℕ → Preparation} {i : ℕ} {rs : List BoardRunner}
    (h : (prepareRunners o i rs).1 = true) :
    (prepareRunners o i rs).2.map BoardRunner.boardInfo =
      (List.range' i rs.length).map fun k => (o k).info := by
  induction rs generalizing i with
  | nil => rfl
  | cons r rs ih =>
    have hfirst : (r.prepare (o i)).1 = true := by
      cases hr : (r.prepare (o i)).1 with
      | true => rfl
      | false => simp [prepareRunners, hr] at h
    have hinfo : (r.prepare (o i)).2.boardInfo = (o i).info := runner_boardInfo hfirst
    simp only [prepareRunners, hfirst, Bool.not_true, Bool.false_eq_true, if_false] at h ⊢
    rw [List.map_cons, ih h, hinfo, List.length_cons, List.range'_succ, List.map_cons]

/-- The header describes every board as it was found, in the order of the `addBoard`s. -/
theorem prepare_boardDefs {cfg : WriterConfig} {o : Preparations} {d : Daq}
    (hnew : d.prepared = false) (h : (prepare cfg o d).1 = true) :
    (prepare cfg o d).2.boardDefs =
      (List.range d.runners.length).map fun k => boardDefFrom (o.board k).info := by
  have hrunners : (prepareRunners o.board 0 d.runners).1 = true ∧
      (prepare cfg o d).2.runners = (prepareRunners o.board 0 d.runners).2 := by
    simp only [prepare, hnew, Bool.false_eq_true, if_false] at h ⊢
    cases hp : (prepareRunners o.board 0 d.runners).1 with
    | false => simp [hp] at h
    | true =>
      simp only [Bool.not_true, Bool.false_eq_true, if_false]
      refine ⟨trivial, ?_⟩
      split
      · split <;> rfl
      · rfl
  have hinfo := congrArg (List.map boardDefFrom) (prepareRunners_boardInfo hrunners.1)
  rw [List.map_map, List.map_map, ← List.range_eq_range', ← hrunners.2] at hinfo
  exact hinfo

end Daq
end CaenDaq
