import CaenDaq.BufferedStream
import CaenDaq.BoardInfo
import Mathlib.Algebra.Order.BigOperators.Group.List
import Mathlib.Algebra.Order.Ring.Nat

/-!
# The file writer

`RawFileWriter` puts the blocks of all boards into part files. The answers of the file
system come in as arguments of each operation. What the source does not keep, but its
promises speak of, is kept here: the parts that were closed, with the blocks accepted
into each and what of them is on the device.
-/

namespace CaenDaq

abbrev RawBlock := List (BitVec 8)

structure WriterConfig where
  maxFileBytes : ℕ := 0
  writeHeader : Bool := true
  header : List (BitVec 8) := []
  deriving DecidableEq, Repr

structure Part where
  header : List (BitVec 8)
  blocks : List RawBlock
  content : List (BitVec 8)
  /-- Its closing left nothing behind. -/
  carried : Bool
  deriving DecidableEq, Repr

namespace Part

def payload (p : Part) : List (BitVec 8) := p.content.drop p.header.length

/-- A part file misses nothing if its last transfer did not fail, else some of its end. -/
structure Kept (p : Part) : Prop where
  initial : p.content <+: p.header ++ p.blocks.flatten
  complete : p.content = p.header ++ p.blocks.flatten ↔ p.carried = true

def Complete (p : Part) : Prop := p.blocks.flatten ≠ [] → p.carried = true

theorem Kept.payload_initial {p : Part} (h : p.Kept) : p.payload <+: p.blocks.flatten := by
  have hdrop := h.initial.drop p.header.length
  rwa [List.drop_left] at hdrop

theorem Kept.payload_eq_iff {p : Part} (h : p.Kept) :
    p.payload = p.blocks.flatten ↔ p.Complete := by
  constructor
  · intro hpayload hne
    refine h.complete.mp (h.initial.eq_of_length_le ?_)
    have hlength := congrArg List.length hpayload
    have hpos := List.length_pos_of_ne_nil hne
    rw [payload, List.length_drop] at hlength
    rw [List.length_append]
    omega
  · intro hcomplete
    by_cases hne : p.blocks.flatten = []
    · have hpayload := h.payload_initial
      rw [hne] at hpayload ⊢
      exact List.prefix_nil.mp hpayload
    · rw [payload, h.complete.mpr (hcomplete hne), List.drop_left]

end Part

/-- The answers of the file system while a part file is opened. -/
structure Opening where
  directory : Bool := true
  closing : Transfer := {}
  opened : Bool := true
  header : Transfer := {}
  deriving DecidableEq, Repr

/-- The answers of the file system while a block is written. -/
structure Writing where
  rotation : Opening := {}
  transfer : Transfer := {}
  deriving DecidableEq, Repr

structure Opening.Fine (o : Opening) : Prop where
  directory : o.directory = true
  closing : o.closing.ok = true
  opened : o.opened = true
  header : o.header.ok = true

structure Writing.Fine (o : Writing) : Prop where
  rotation : o.rotation.Fine
  transfer : o.transfer.ok = true

structure RawFileWriter where
  file : BufferedStream (BitVec 8) := {}
  cycle : ℕ := 0
  fileBytes : ℕ := 0
  totalBytes : ℕ := 0
  totalBuffers : ℕ := 0
  headerWritten : Bool := false
  closed : Bool := true
  /-- The header and the blocks accepted into the current part. -/
  header : List (BitVec 8) := []
  blocks : List RawBlock := []
  parts : List Part := []
  deriving DecidableEq, Repr

namespace RawFileWriter

open BufferedStream (written)

def closeFile (t : Transfer) (w : RawFileWriter) : RawFileWriter :=
  let part : Part :=
    { header := w.header, blocks := w.blocks, content := (w.file.close t).device
      carried := w.file.buffer = [] || t.ok }
  { w with
    file := w.file.close t
    header := []
    blocks := []
    parts := if w.file.isOpen then w.parts ++ [part] else w.parts }

variable (cfg : WriterConfig)

def openCycle (firstFile : Bool) (o : Opening) (w : RawFileWriter) : Bool × RawFileWriter :=
  if !o.directory then (false, w)
  else
    let w := closeFile o.closing w
    let w := { w with file := w.file.clear.openFile o.opened }
    if !w.file.isOpen then (false, w)
    else
      let w := { w with fileBytes := 0, closed := false }
      if firstFile && cfg.writeHeader then
        let w := { w with file := w.file.write cfg.header o.header }
        if !w.file.good then (false, w)
        else
          (true, { w with
            fileBytes := w.fileBytes + cfg.header.length, headerWritten := true
            header := cfg.header })
      else (true, w)

def openFirst (o : Opening) (w : RawFileWriter) : Bool × RawFileWriter :=
  openCycle cfg true o
    { w with cycle := 0, totalBytes := 0, totalBuffers := 0, headerWritten := false }

/-- A block that would push the file past the limit goes into the next part. -/
def rotates (len : ℕ) (w : RawFileWriter) : Bool :=
  cfg.maxFileBytes ≠ 0 && cfg.maxFileBytes < w.fileBytes + len && 0 < w.fileBytes

def rotate (len : ℕ) (o : Opening) (w : RawFileWriter) : Bool × RawFileWriter :=
  if rotates cfg len w then openCycle cfg false o { w with cycle := w.cycle + 1 } else (true, w)

def write (data : RawBlock) (o : Writing) (w : RawFileWriter) : Bool × RawFileWriter :=
  if w.closed then (false, w)
  else if data.length = 0 then (true, w)
  else
    let r := rotate cfg data.length o.rotation w
    if !r.1 then r
    else
      let w := { r.2 with file := r.2.file.write data o.transfer }
      if !w.file.good then (false, w)
      else
        (true, { w with
          fileBytes := w.fileBytes + data.length
          totalBytes := w.totalBytes + data.length
          totalBuffers := w.totalBuffers + 1
          blocks := w.blocks ++ [data] })

def flush (t : Transfer) (w : RawFileWriter) : Bool × RawFileWriter :=
  if w.closed || !w.file.isOpen then (true, w)
  else
    let w := { w with file := w.file.flush t }
    (w.file.good, w)

/-- `close` flushes before it closes, so there are two transfers that may fail. -/
def close (t t' : Transfer) (w : RawFileWriter) : RawFileWriter :=
  if w.closed then w
  else
    let w := if w.file.isOpen then closeFile t' { w with file := w.file.flush t } else w
    { w with closed := true }

/-- A writer in the middle of a run: what it took is in the parts closed so far and in
the current one, there on the device or pending. -/
structure Ready (w : RawFileWriter) : Prop where
  isOpen : w.file.isOpen = true
  closed : w.closed = false
  written : w.file.written = w.header ++ w.blocks.flatten
  parts : ∀ p ∈ w.parts, p.Kept

def taken (w : RawFileWriter) : List (BitVec 8) :=
  (w.parts.map fun p => p.blocks.flatten).flatten ++ w.blocks.flatten

def payload (w : RawFileWriter) : List (BitVec 8) := (w.parts.map Part.payload).flatten

variable {cfg}

theorem closeFile_spec {w : RawFileWriter} (h : Ready w) (t : Transfer) :
    (∀ p ∈ (closeFile t w).parts, p.Kept) ∧ (closeFile t w).blocks = [] ∧
      (closeFile t w).taken = w.taken := by
  obtain ⟨hpre, hcomplete⟩ := BufferedStream.close_device h.isOpen t
  rw [h.written] at hpre hcomplete
  have hparts : (closeFile t w).parts = w.parts ++
      [{ header := w.header, blocks := w.blocks, content := (w.file.close t).device
         carried := w.file.buffer = [] || t.ok }] := by
    simp [closeFile, h.isOpen]
  refine ⟨?_, rfl, ?_⟩
  · intro p hp
    rw [hparts] at hp
    rcases List.mem_append.mp hp with hp | hp
    · exact h.parts p hp
    · obtain rfl := List.mem_singleton.mp hp
      exact ⟨hpre, by simpa using hcomplete⟩
  · have hblocks : (closeFile t w).blocks = [] := rfl
    rw [taken, hblocks, hparts]
    simp [taken]

theorem openCycle_spec {firstFile : Bool} {o : Opening} {w : RawFileWriter}
    (h : (openCycle cfg firstFile o w).1 = true) :
    (openCycle cfg firstFile o w).2.file.isOpen = true ∧
      (openCycle cfg firstFile o w).2.closed = false ∧
      (openCycle cfg firstFile o w).2.file.written = (openCycle cfg firstFile o w).2.header ∧
      (openCycle cfg firstFile o w).2.blocks = [] ∧
      (openCycle cfg firstFile o w).2.parts = (closeFile o.closing w).parts ∧
      (openCycle cfg firstFile o w).2.totalBytes = w.totalBytes ∧
      (openCycle cfg firstFile o w).2.file.good = true := by
  have hdirectory : ¬(!o.directory) = true := by
    intro hno
    rw [openCycle, if_pos hno] at h
    exact absurd h Bool.false_ne_true
  unfold openCycle at h ⊢
  rw [if_neg hdirectory] at h ⊢
  cases hopened : o.opened with
  | false =>
    have hclosed : ((closeFile o.closing w).file.clear.openFile false).isOpen = false := by
      by_cases hopen : w.file.isOpen = true
      · simp [closeFile, BufferedStream.close, BufferedStream.clear, BufferedStream.openFile, hopen]
      · simp [closeFile, BufferedStream.close, BufferedStream.clear, BufferedStream.openFile, hopen]
    simp [hopened, hclosed] at h
  | true =>
    simp only [hopened, BufferedStream.openFile, if_true, Bool.not_true, Bool.false_eq_true,
      if_false] at h ⊢
    by_cases hheader : (firstFile && cfg.writeHeader) = true
    · rw [if_pos hheader] at h ⊢
      by_cases hgood : (BufferedStream.write cfg.header o.header
          { (closeFile o.closing w).file.clear with
            isOpen := true, good := true, buffer := [], device := [] }).good = true
      · simp only [hgood, Bool.not_true, Bool.false_eq_true, if_false]
        exact ⟨BufferedStream.write_isOpen _ _ _, trivial, (BufferedStream.write_good hgood).2.2,
          rfl, trivial, rfl, trivial⟩
      · simp [hgood] at h
    · rw [if_neg hheader]
      exact ⟨rfl, rfl, rfl, rfl, rfl, rfl, rfl⟩

theorem openFirst_spec {o : Opening} (h : (openFirst cfg o {}).1 = true) :
    Ready (openFirst cfg o {}).2 ∧ (openFirst cfg o {}).2.taken = [] ∧
      (openFirst cfg o {}).2.totalBytes = 0 := by
  obtain ⟨hopen, hclosed, hwritten, hblocks, hparts, htotal, _⟩ := openCycle_spec h
  change (openFirst cfg o {}).2.parts = [] at hparts
  refine ⟨⟨hopen, hclosed, ?_, ?_⟩, ?_, htotal⟩
  · rw [openFirst, hwritten, hblocks, List.flatten_nil, List.append_nil]
  · rw [hparts]
    exact fun p hp => absurd hp List.not_mem_nil
  · rw [taken, hparts, openFirst, hblocks]
    rfl

theorem rotate_spec {w : RawFileWriter} (hw : Ready w) {len : ℕ} {o : Opening}
    (h : (rotate cfg len o w).1 = true) :
    Ready (rotate cfg len o w).2 ∧ (rotate cfg len o w).2.taken = w.taken ∧
      (rotate cfg len o w).2.totalBytes = w.totalBytes := by
  unfold rotate at h ⊢
  by_cases hrotates : rotates cfg len w = true
  · rw [if_pos hrotates] at h ⊢
    obtain ⟨hopen, hclosed, hwritten, hblocks, hparts, htotal, _⟩ := openCycle_spec h
    have hready : Ready { w with cycle := w.cycle + 1 } := ⟨hw.1, hw.2, hw.3, hw.4⟩
    obtain ⟨hkept, hcurrent, htaken⟩ := closeFile_spec hready o.closing
    refine ⟨⟨hopen, hclosed, ?_, ?_⟩, ?_, htotal⟩
    · rw [hwritten, hblocks, List.flatten_nil, List.append_nil]
    · rw [hparts]
      exact hkept
    · rw [taken, hblocks, ← hcurrent, hparts]
      exact htaken
  · rw [if_neg hrotates]
    exact ⟨hw, rfl, rfl⟩

def took (data : RawBlock) (file : BufferedStream (BitVec 8)) (w : RawFileWriter) :
    RawFileWriter :=
  { w with
    file := file
    fileBytes := w.fileBytes + data.length
    totalBytes := w.totalBytes + data.length
    totalBuffers := w.totalBuffers + 1
    blocks := w.blocks ++ [data] }

/-- A write that reports success had nothing to write, or found room for its block, in
the current part or the next, and a stream that took it. -/
theorem write_cases {w : RawFileWriter} (hclosed : w.closed = false) {data : RawBlock} {o : Writing}
    (h : (write cfg data o w).1 = true) :
    (data = [] ∧ (write cfg data o w).2 = w) ∨
    (data ≠ [] ∧ (rotate cfg data.length o.rotation w).1 = true ∧
      ((rotate cfg data.length o.rotation w).2.file.write data o.transfer).good = true ∧
      (write cfg data o w).2 = (rotate cfg data.length o.rotation w).2.took data
        ((rotate cfg data.length o.rotation w).2.file.write data o.transfer)) := by
  have hopen : ¬w.closed = true := by simp [hclosed]
  unfold write at h ⊢
  rw [if_neg hopen] at h ⊢
  by_cases hempty : data = []
  · exact .inl ⟨hempty, by rw [hempty, List.length_nil, if_pos rfl]⟩
  · have hlength : ¬data.length = 0 := fun hzero => hempty (List.eq_nil_of_length_eq_zero hzero)
    rw [if_neg hlength] at h ⊢
    by_cases hpart : (rotate cfg data.length o.rotation w).1 = true
    · generalize rotate cfg data.length o.rotation w = r at *
      simp only [hpart, Bool.not_true, Bool.false_eq_true, if_false] at h ⊢
      by_cases hgood : (r.2.file.write data o.transfer).good = true
      · simp only [hgood, Bool.not_true, Bool.false_eq_true, if_false]
        exact .inr ⟨hempty, trivial, trivial, rfl⟩
      · simp [hgood] at h
    · simp [hpart] at h

/-- A write that reports success has taken its block. -/
theorem write_spec {w : RawFileWriter} (hw : Ready w) {data : RawBlock} {o : Writing}
    (h : (write cfg data o w).1 = true) :
    Ready (write cfg data o w).2 ∧ (write cfg data o w).2.taken = w.taken ++ data ∧
      (write cfg data o w).2.totalBytes = w.totalBytes + data.length := by
  rcases write_cases hw.closed h with ⟨rfl, heq⟩ | ⟨_, hpart, hgood, heq⟩
  · rw [heq, List.append_nil]
    exact ⟨hw, rfl, rfl⟩
  · obtain ⟨hready, htaken, htotal⟩ := rotate_spec hw hpart
    rw [heq, ← htaken, ← htotal]
    refine ⟨⟨?_, hready.closed, ?_, hready.parts⟩, ?_, rfl⟩
    · show (BufferedStream.write _ _ _).isOpen = true
      rw [BufferedStream.write_isOpen, hready.isOpen]
    · show (BufferedStream.write _ _ _).written = _
      rw [(BufferedStream.write_good hgood).2.2, hready.written, took, List.flatten_append,
        List.flatten_singleton, List.append_assoc]
    · simp [taken, took]

theorem flush_spec {w : RawFileWriter} (hw : Ready w) (t : Transfer) :
    Ready (flush t w).2 ∧ (flush t w).2.taken = w.taken ∧
      (flush t w).2.totalBytes = w.totalBytes := by
  have hopen : ¬(w.closed || !w.file.isOpen) = true := by simp [hw.closed, hw.isOpen]
  rw [flush, if_neg hopen]
  exact ⟨⟨by rw [BufferedStream.flush_isOpen, hw.isOpen], hw.closed,
    by rw [BufferedStream.flush_written, hw.written], hw.parts⟩, rfl, rfl⟩

theorem close_spec {w : RawFileWriter} (hw : Ready w) (t t' : Transfer) :
    (∀ p ∈ (close t t' w).parts, p.Kept) ∧
      ((close t t' w).parts.map fun p => p.blocks.flatten).flatten = w.taken ∧
      (close t t' w).totalBytes = w.totalBytes := by
  have hopen : ¬w.closed = true := by simp [hw.closed]
  have hflushed : Ready { w with file := w.file.flush t } :=
    ⟨by rw [BufferedStream.flush_isOpen, hw.isOpen], hw.closed,
      by rw [BufferedStream.flush_written, hw.written], hw.parts⟩
  obtain ⟨hkept, hblocks, htaken⟩ := closeFile_spec hflushed t'
  rw [close, if_neg hopen]
  simp only [hw.isOpen, if_true]
  refine ⟨hkept, ?_, rfl⟩
  rw [taken, hblocks, List.flatten_nil, List.append_nil] at htaken
  exact htaken

theorem flatten_eq_iff {β γ : Type} {f g : β → List γ} {l : List β}
    (h : ∀ b ∈ l, f b <+: g b) :
    (l.map f).flatten = (l.map g).flatten ↔ ∀ b ∈ l, f b = g b := by
  induction l with
  | nil => simp
  | cons b l ih =>
    have hl := ih fun c hc => h c (List.mem_cons_of_mem _ hc)
    have hle : (l.map f).flatten.length ≤ (l.map g).flatten.length := by
      simp only [List.length_flatten, List.map_map]
      exact List.sum_le_sum fun c hc => (h c (List.mem_cons_of_mem _ hc)).length_le
    rw [List.map_cons, List.map_cons, List.flatten_cons, List.flatten_cons, List.forall_mem_cons,
      ← hl]
    constructor
    · intro heq
      have hlength := congrArg List.length heq
      rw [List.length_append, List.length_append] at hlength
      have hb := (h b List.mem_cons_self).eq_of_length_le (by omega)
      rw [hb] at heq
      exact ⟨hb, List.append_cancel_left heq⟩
    · rintro ⟨hb, hrest⟩
      rw [hb, hrest]

/-- The part files hold every block exactly if the closing of each part with blocks in
it left nothing behind. -/
theorem payload_eq_iff {w : RawFileWriter} (h : ∀ p ∈ w.parts, p.Kept) :
    w.payload = (w.parts.map fun p => p.blocks.flatten).flatten ↔
      ∀ p ∈ w.parts, p.Complete := by
  rw [payload, flatten_eq_iff fun p hp => (h p hp).payload_initial]
  exact forall₂_congr fun p hp => (h p hp).payload_eq_iff

/-- Closing the current part with one transfer leaves none of its blocks behind. -/
def Carries (t : Transfer) (w : RawFileWriter) : Prop :=
  w.blocks.flatten ≠ [] → w.file.buffer = [] ∨ t.ok = true

/-- Closing it with a flush and a transfer does not, at the end. -/
def CarriesLast (t t' : Transfer) (w : RawFileWriter) : Prop :=
  w.blocks.flatten ≠ [] → w.file.buffer = [] ∨ w.file.good = true ∧ t.ok = true ∨ t'.ok = true

/-- Nor does the closing of a part that has no room for a block. -/
def CarriesOver (cfg : WriterConfig) (data : RawBlock) (o : Opening) (w : RawFileWriter) : Prop :=
  data ≠ [] → rotates cfg data.length w = true → w.Carries o.closing

theorem closeFile_complete {w : RawFileWriter} (hopen : w.file.isOpen = true) (t : Transfer) :
    (∀ p ∈ (closeFile t w).parts, p.Complete) ↔ (∀ p ∈ w.parts, p.Complete) ∧ w.Carries t := by
  simp only [closeFile, hopen, if_true, List.forall_mem_append, List.forall_mem_singleton,
    Part.Complete, Carries, Bool.or_eq_true, decide_eq_true_eq]

theorem rotate_complete {w : RawFileWriter} (hw : Ready w) {len : ℕ} {o : Opening}
    (h : (rotate cfg len o w).1 = true) :
    (∀ p ∈ (rotate cfg len o w).2.parts, p.Complete) ↔
      (∀ p ∈ w.parts, p.Complete) ∧ (rotates cfg len w = true → w.Carries o.closing) := by
  unfold rotate at h ⊢
  by_cases hrotates : rotates cfg len w = true
  · rw [if_pos hrotates] at h ⊢
    obtain ⟨_, _, _, _, hparts, _, _⟩ := openCycle_spec h
    have hclosed := closeFile_complete (show ({ w with cycle := w.cycle + 1 } :
      RawFileWriter).file.isOpen = true from hw.isOpen) o.closing
    rw [hparts, hclosed]
    simp only [hrotates, forall_const]
    exact Iff.rfl
  · rw [if_neg hrotates]
    simp only [hrotates, Bool.false_eq_true, IsEmpty.forall_iff, and_true]

theorem write_complete {w : RawFileWriter} (hw : Ready w) {data : RawBlock} {o : Writing}
    (h : (write cfg data o w).1 = true) :
    (∀ p ∈ (write cfg data o w).2.parts, p.Complete) ↔
      (∀ p ∈ w.parts, p.Complete) ∧ w.CarriesOver cfg data o.rotation := by
  rcases write_cases hw.closed h with ⟨hempty, heq⟩ | ⟨hempty, hpart, _, heq⟩
  · rw [heq, CarriesOver]
    simp only [hempty, ne_eq, not_true_eq_false, IsEmpty.forall_iff, and_true]
  · have hrotated := rotate_complete hw hpart
    rw [heq, CarriesOver]
    simp only [hempty, ne_eq, not_false_eq_true, forall_const]
    exact hrotated

theorem close_complete {w : RawFileWriter} (hw : Ready w) (t t' : Transfer) :
    (∀ p ∈ (close t t' w).parts, p.Complete) ↔
      (∀ p ∈ w.parts, p.Complete) ∧ w.CarriesLast t t' := by
  have hopen : ¬w.closed = true := by simp [hw.closed]
  have hflushed : ({ w with file := w.file.flush t } : RawFileWriter).file.isOpen = true := by
    rw [BufferedStream.flush_isOpen, hw.isOpen]
  have hcarries : Carries t' { w with file := w.file.flush t } ↔ w.CarriesLast t t' := by
    rw [Carries, CarriesLast, BufferedStream.flush_buffer, or_assoc]
  rw [close, if_neg hopen]
  simp only [hw.isOpen, if_true]
  rw [closeFile_complete hflushed, hcarries]

/-- A writer that never met a failure. -/
structure Flawless (w : RawFileWriter) : Prop extends Ready w where
  good : w.file.good = true
  complete : ∀ p ∈ w.parts, p.Complete

theorem openFirst_flawless {o : Opening} (h : (openFirst cfg o {}).1 = true) :
    Flawless (openFirst cfg o {}).2 := by
  obtain ⟨hready, _⟩ := openFirst_spec h
  obtain ⟨_, _, _, _, hparts, _, hgood⟩ := openCycle_spec h
  refine ⟨hready, hgood, ?_⟩
  intro p hp
  rw [openFirst, hparts] at hp
  exact absurd hp List.not_mem_nil

theorem rotate_flawless {w : RawFileWriter} (hw : Flawless w) {len : ℕ} {o : Opening}
    (ho : o.Fine) : (rotate cfg len o w).1 = true ∧ Flawless (rotate cfg len o w).2 := by
  have hok : (rotate cfg len o w).1 = true := by
    unfold rotate
    split
    · simp [openCycle, ho.directory, ho.opened, BufferedStream.openFile]
    · rfl
  have hgood : (rotate cfg len o w).2.file.good = true := by
    unfold rotate at hok ⊢
    by_cases hrotates : rotates cfg len w = true
    · rw [if_pos hrotates] at hok ⊢
      obtain ⟨_, _, _, _, _, _, hgood⟩ := openCycle_spec hok
      exact hgood
    · rw [if_neg hrotates]
      exact hw.good
  have hcomplete := (rotate_complete hw.toReady hok).mpr
    ⟨hw.complete, fun _ _ => .inr ho.closing⟩
  exact ⟨hok, (rotate_spec hw.toReady hok).1, hgood, hcomplete⟩

theorem write_flawless {w : RawFileWriter} (hw : Flawless w) {data : RawBlock} {o : Writing}
    (ho : o.Fine) : (write cfg data o w).1 = true ∧ Flawless (write cfg data o w).2 := by
  have hrotate : (rotate cfg data.length o.rotation w).1 = true ∧
      Flawless (rotate cfg data.length o.rotation w).2 := rotate_flawless hw ho.rotation
  obtain ⟨hpart, hflawless⟩ := hrotate
  have hstream : ((rotate cfg data.length o.rotation w).2.file.write data o.transfer).good =
      true := by
    rw [BufferedStream.write, if_pos hflawless.good]
    exact ho.transfer
  have hok : (write cfg data o w).1 = true := by
    by_cases hempty : data.length = 0
    · simp [write, hw.closed, hempty]
    · simp [write, hw.closed, hempty, hpart, hstream]
  have hgood : (write cfg data o w).2.file.good = true := by
    rcases write_cases hw.closed hok with ⟨_, heq⟩ | ⟨_, _, _, heq⟩
    · rw [heq]
      exact hw.good
    · rw [heq]
      exact hstream
  have hcomplete := (write_complete hw.toReady hok).mpr
    ⟨hw.complete, fun _ _ _ => .inr ho.rotation.closing⟩
  exact ⟨hok, (write_spec hw.toReady hok).1, hgood, hcomplete⟩

theorem flush_flawless {w : RawFileWriter} (hw : Flawless w) {t : Transfer} (ht : t.ok = true) :
    Flawless (flush t w).2 := by
  have hopen : ¬(w.closed || !w.file.isOpen) = true := by simp [hw.closed, hw.isOpen]
  obtain ⟨hready, _⟩ := flush_spec hw.toReady t
  rw [flush, if_neg hopen] at hready ⊢
  exact ⟨hready, BufferedStream.flush_good hw.good ht, hw.complete⟩

theorem close_flawless {w : RawFileWriter} (hw : Flawless w) (t : Transfer) {t' : Transfer}
    (ht' : t'.ok = true) : (close t t' w).payload = w.taken := by
  obtain ⟨hkept, htaken, _⟩ := close_spec hw.toReady t t'
  rw [← htaken, payload_eq_iff hkept, close_complete hw.toReady]
  exact ⟨hw.complete, fun _ => .inr (.inr ht')⟩

end RawFileWriter
end CaenDaq
