import CaenDaq.StreamRoundTrip

/-!
# Streams that are cut off

A file may end anywhere: in its header, between two aggregates, in the middle of one or of
a word. The decoder finds in it the aggregates that are there in full, and those only.
-/

namespace CaenDaq
namespace CutStream

open Checked Transducer AggregateDecoder AggregateStream DecoderRefinement BoardStream
open StreamRoundTrip

/-- The aggregates that are complete in the first `n` words of a stream. -/
def whole (n : ℕ) : List BoardAggregate → List BoardAggregate
  | [] => []
  | a :: as => if a.words.length ≤ n then a :: whole (n - a.words.length) as else []

theorem whole_prefix (n : ℕ) (as : List BoardAggregate) : whole n as <+: as := by
  induction as generalizing n with
  | nil => exact List.nil_prefix
  | cons a as ih =>
    rw [whole]
    split
    · exact (List.prefix_cons_inj a).mpr (ih _)
    · exact List.nil_prefix

theorem whole_append (as bs : List BoardAggregate) (n : ℕ) :
    whole ((stream as).length + n) (as ++ bs) = as ++ whole n bs := by
  induction as with
  | nil => rw [stream_nil, List.length_nil, Nat.zero_add, List.nil_append, List.nil_append]
  | cons a as ih =>
    rw [List.cons_append, whole, stream_cons, List.length_append, if_pos (by omega),
      show a.words.length + (stream as).length + n - a.words.length = (stream as).length + n by
        omega,
      ih, List.cons_append]

theorem whole_all (as : List BoardAggregate) : whole (stream as).length as = as := by
  have h := whole_append as [] 0
  rwa [Nat.add_zero, List.append_nil, whole, List.append_nil] at h

/-- The first words of a stream are its complete aggregates and a part of one more. -/
theorem segments_take (n : ℕ) (as : List BoardAggregate) :
    segments ((stream as).take n) = (whole n as).map fun a => .aggregate a.words := by
  induction as generalizing n with
  | nil =>
    rw [stream_nil, List.take_nil, segments]
    rfl
  | cons a as ih =>
    rw [stream_cons, whole]
    split
    · next hfits =>
      rw [List.take_append, List.take_of_length_le hfits, segments_aggregate, ih, List.map_cons]
    · next hcut =>
      rw [List.take_append_of_le_length (Nat.le_of_not_le hcut),
        segments_cut a (Nat.lt_of_not_le hcut), List.map_nil]

/-- A decoder finds these aggregates in a file, and nothing else. -/
def Finds (file : List (BitVec 8)) (as : List BoardAggregate) : Prop :=
  segments (wordsOf file) = as.map fun a => .aggregate a.words

theorem Finds.decodeWords {file : List (BitVec 8)} {as : List BoardAggregate} (h : Finds file as)
    (d : AggregateDecoder) : decodeWords d (wordsOf file) = decodeWords d (stream as) := by
  rw [AggregateStream.decodeWords, h, ← segments_stream_only]
  rfl

/-- Words in front of a stream that are taken for filler. -/
def Filler (header : List Word) : Prop := ∀ w ∈ header, isSync w = false

theorem finds_cut {header : List Word} (hheader : Filler header) {file : List (BitVec 8)}
    {as : List BoardAggregate} (h : file <+: bytesOf header ++ payload as) :
    Finds file (whole (file.length / 4 - header.length) as) := by
  have hfile : wordsOf file = (header ++ stream as).take (file.length / 4) := by
    have htake := List.prefix_iff_eq_take.mp h
    rw [payload, ← bytesOf_append] at htake
    rw [← wordsOf_take_bytesOf, ← htake]
  rw [Finds, hfile, List.take_append, ← segments_take]
  exact segments_filler (fun w hw => hheader w (List.mem_of_mem_take hw)) _

theorem finds_all {header : List Word} (hheader : Filler header) (as : List BoardAggregate) :
    Finds (bytesOf header ++ payload as) as := by
  have h := finds_cut hheader (List.prefix_refl (bytesOf header ++ payload as))
  have hlength : (bytesOf header ++ payload as).length / 4 - header.length =
      (stream as).length := by
    rw [List.length_append, payload, bytesOf_length, bytesOf_length, ← Nat.mul_add,
      Nat.mul_div_cancel_left _ (by decide)]
    omega
  rwa [hlength, whole_all] at h

/-- Files are decoded one after the other on one decoder, as if the aggregates in them
stood in one stream. -/
theorem decodeBlocks_finds (d : AggregateDecoder) {files : List (List (BitVec 8))}
    {held : List (List BoardAggregate)} (h : List.Forall₂ Finds files held)
    (hsize : ∀ file ∈ files, file.length < 2 ^ 32) :
    decodeBlocks d files = .ok (decoded (decodeWords d (stream held.flatten))) := by
  have hwords : run decodeWords d (files.map wordsOf) = run decodeWords d (held.map stream) := by
    clear hsize
    induction h generalizing d with
    | nil => rfl
    | cons hfile _ ih =>
      rw [List.map_cons, List.map_cons, run_cons, run_cons, hfile.decodeWords, ih]
  rw [decodeBlocks_ok d hsize, hwords, run_blocks]

end CutStream
end CaenDaq
