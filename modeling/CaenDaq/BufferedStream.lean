import Mathlib.Data.List.Basic

/-!
# A buffered stream over a device

What is written goes into a buffer and from there, in transfers, to the device. Any
transfer may fail: a part of what was pending may then have arrived, the rest is pending
still, and the stream takes no more until it is cleared. Closing makes one last transfer
and gives up what is left.
-/

namespace CaenDaq

/-- How a transfer goes: whether it succeeds, and how much of the pending arrives when
it is not a transfer of everything. -/
structure Transfer where
  ok : Bool := true
  arrived : ℕ := 0
  deriving DecidableEq, Repr

structure BufferedStream (α : Type) where
  isOpen : Bool := false
  good : Bool := true
  buffer : List α := []
  device : List α := []
  deriving DecidableEq, Repr

namespace BufferedStream

variable {α : Type}

/-- All that was given to a stream, on the device or pending. -/
def written (s : BufferedStream α) : List α := s.device ++ s.buffer

def transfer (n : ℕ) (s : BufferedStream α) : BufferedStream α :=
  { s with device := s.device ++ s.buffer.take n, buffer := s.buffer.drop n }

/-- A transfer of everything that is pending, if anything is. One that fails leaves some
of it behind. -/
def sync (t : Transfer) (s : BufferedStream α) : BufferedStream α :=
  if s.buffer = [] then s
  else if t.ok then transfer s.buffer.length s
  else { transfer (min t.arrived (s.buffer.length - 1)) s with good := false }

/-- A stream that is not good takes nothing. -/
def write (data : List α) (t : Transfer) (s : BufferedStream α) : BufferedStream α :=
  if s.good then { transfer t.arrived { s with buffer := s.buffer ++ data } with good := t.ok }
  else s

def flush (t : Transfer) (s : BufferedStream α) : BufferedStream α :=
  if s.good then sync t s else s

/-- What the last transfer leaves pending is lost. -/
def close (t : Transfer) (s : BufferedStream α) : BufferedStream α :=
  if s.isOpen then { sync t s with isOpen := false, buffer := [] } else { s with good := false }

def clear (s : BufferedStream α) : BufferedStream α := { s with good := true }

def openFile (opened : Bool) (s : BufferedStream α) : BufferedStream α :=
  if opened then { s with isOpen := true, good := true, buffer := [], device := [] }
  else { s with good := false }

@[simp] theorem transfer_written (n : ℕ) (s : BufferedStream α) :
    (transfer n s).written = s.written := by
  simp [written, transfer, List.append_assoc]

@[simp] theorem sync_written (t : Transfer) (s : BufferedStream α) :
    (sync t s).written = s.written := by
  unfold sync
  split
  · rfl
  · split
    · exact transfer_written _ s
    · exact transfer_written _ s

@[simp] theorem sync_isOpen (t : Transfer) (s : BufferedStream α) : (sync t s).isOpen = s.isOpen := by
  unfold sync
  split
  · rfl
  · split <;> rfl

/-- A transfer of everything empties the buffer exactly if it does not fail. -/
theorem sync_buffer (t : Transfer) (s : BufferedStream α) :
    (sync t s).buffer = [] ↔ s.buffer = [] ∨ t.ok = true := by
  unfold sync
  by_cases hempty : s.buffer = []
  · simp [hempty]
  · have hlength := List.length_pos_of_ne_nil hempty
    rw [if_neg hempty]
    cases hok : t.ok with
    | true => simp [transfer]
    | false =>
      simp only [transfer, hempty, Bool.false_eq_true, if_false, or_self, iff_false,
        List.drop_eq_nil_iff]
      omega

@[simp] theorem flush_written (t : Transfer) (s : BufferedStream α) :
    (flush t s).written = s.written := by
  unfold flush
  split
  · exact sync_written t s
  · rfl

@[simp] theorem flush_isOpen (t : Transfer) (s : BufferedStream α) :
    (flush t s).isOpen = s.isOpen := by
  unfold flush
  split
  · exact sync_isOpen t s
  · rfl

theorem flush_buffer (t : Transfer) (s : BufferedStream α) :
    (flush t s).buffer = [] ↔ s.buffer = [] ∨ s.good = true ∧ t.ok = true := by
  unfold flush
  split
  · next hgood =>
    rw [sync_buffer]
    simp [hgood]
  · next hbad => simp [hbad]

theorem flush_good {t : Transfer} {s : BufferedStream α} (hgood : s.good = true)
    (hok : t.ok = true) : (flush t s).good = true := by
  rw [flush, if_pos hgood, sync, if_pos hok]
  split
  · exact hgood
  · exact hgood

@[simp] theorem write_isOpen (data : List α) (t : Transfer) (s : BufferedStream α) :
    (write data t s).isOpen = s.isOpen := by
  unfold write
  split <;> rfl

theorem write_good {data : List α} {t : Transfer} {s : BufferedStream α}
    (h : (write data t s).good = true) :
    s.good = true ∧ t.ok = true ∧ (write data t s).written = s.written ++ data := by
  cases hgood : s.good with
  | false => simp [write, hgood] at h
  | true =>
    simp only [write, hgood, if_true] at h ⊢
    refine ⟨trivial, h, ?_⟩
    show (transfer t.arrived { s with buffer := s.buffer ++ data }).written = _
    rw [transfer_written]
    exact (List.append_assoc _ _ _).symm

/-- The device gets everything exactly if the last transfer does not fail. -/
theorem close_device {s : BufferedStream α} (hopen : s.isOpen = true) (t : Transfer) :
    (close t s).device <+: s.written ∧
      ((close t s).device = s.written ↔ s.buffer = [] ∨ t.ok = true) := by
  have hwritten := sync_written t s
  have hdevice : (close t s).device = (sync t s).device := by
    rw [close, if_pos hopen]
  rw [hdevice, ← hwritten, ← sync_buffer]
  exact ⟨List.prefix_append _ _, by simp [written]⟩

end BufferedStream
end CaenDaq
