import CaenDaq.DecoderRefinement

/-!
# Streams of complete board aggregates

A stream of complete aggregates can be cut between any two of them: the decoder
carries everything it needs across the cut, so decoding a run in one piece and
decoding it block by block agree in every event and leave the same decoder.
-/

namespace CaenDaq
namespace BoardStream

open Checked Transducer AggregateDecoder AggregateStream DecoderRefinement

/-- The bytes of a word list, least significant byte first. -/
def bytesOf : List Word → List (BitVec 8)
  | [] => []
  | w :: ws =>
    w.extractLsb' 0 8 :: w.extractLsb' 8 8 :: w.extractLsb' 16 8 :: w.extractLsb' 24 8 :: bytesOf ws

@[simp] theorem bytesOf_length (ws : List Word) : (bytesOf ws).length = 4 * ws.length := by
  induction ws with
  | nil => rfl
  | cons w ws ih =>
    simp only [bytesOf, List.length_cons, ih]
    omega

theorem bytesOf_append (ws ws' : List Word) : bytesOf (ws ++ ws') = bytesOf ws ++ bytesOf ws' := by
  induction ws with
  | nil => rfl
  | cons w ws ih => simp only [bytesOf, List.cons_append, ih]

theorem word_of_bytes (w : Word) :
    w.extractLsb' 24 8 ++ w.extractLsb' 16 8 ++ w.extractLsb' 8 8 ++ w.extractLsb' 0 8 = w := by
  rw [BitVec.extractLsb'_append_extractLsb'_eq_extractLsb' (by decide),
    BitVec.extractLsb'_append_extractLsb'_eq_extractLsb' (by decide),
    BitVec.extractLsb'_append_extractLsb'_eq_extractLsb' (by decide)]
  exact BitVec.extractLsb'_eq_self

theorem wordsOf_bytesOf (ws : List Word) (rest : List (BitVec 8)) :
    wordsOf (bytesOf ws ++ rest) = ws ++ wordsOf rest := by
  induction ws with
  | nil => rfl
  | cons w ws ih =>
    simp only [bytesOf, List.cons_append, wordsOf, ih]
    rw [word_of_bytes]

/-- A board aggregate with all the words its length field announces. What stands in
them is arbitrary. -/
structure BoardAggregate where
  words : List Word
  long : kAggHeaderWords ≤ words.length
  sync : isSync (words.getD 0 0) = true
  announced : aggLength (words.getD 0 0) = words.length

/-- A complete aggregate is one segment, and the walk goes on right behind it. -/
theorem segments_aggregate (a : BoardAggregate) (rest : List Word) :
    segments (a.words ++ rest) = .aggregate a.words :: segments rest := by
  rcases a with ⟨_ | ⟨sync, ws⟩, hlong, hsync, hlen⟩
  · exact absurd hlong (by decide)
  · have hs : isSync sync = true := hsync
    have hn : aggLength sync = ws.length + 1 := hlen
    have hl : kAggHeaderWords ≤ ws.length + 1 := hlong
    have htake : (sync :: (ws ++ rest)).take (ws.length + 1) = sync :: ws := by simp
    have hdrop : (sync :: (ws ++ rest)).drop (ws.length + 1) = rest := by simp
    simp only [List.cons_append]
    rw [segments, List.length_append, if_neg (by omega), if_neg (by simp [hs]),
      dif_neg (by omega), if_neg (by omega), hn, htake, hdrop]

def stream (as : List BoardAggregate) : List Word := (as.map BoardAggregate.words).flatten

@[simp] theorem stream_nil : stream [] = [] := rfl

theorem stream_cons (a : BoardAggregate) (as : List BoardAggregate) :
    stream (a :: as) = a.words ++ stream as := rfl

theorem stream_flatten (blocks : List (List BoardAggregate)) :
    stream blocks.flatten = (blocks.map stream).flatten := by
  induction blocks with
  | nil => rfl
  | cons as blocks ih =>
    rw [List.flatten_cons, List.map_cons, List.flatten_cons, ← ih]
    simp only [stream, List.map_append, List.flatten_append]

theorem segments_stream (as : List BoardAggregate) (rest : List Word) :
    segments (stream as ++ rest) = as.map (fun a => Segment.aggregate a.words) ++ segments rest := by
  induction as with
  | nil => rfl
  | cons a as ih =>
    rw [stream_cons, List.append_assoc, segments_aggregate, ih, List.map_cons, List.cons_append]

theorem segments_stream_only (as : List BoardAggregate) :
    segments (stream as) = as.map (fun a => Segment.aggregate a.words) := by
  have h := segments_stream as []
  rwa [List.append_nil, segments, List.append_nil] at h

def payload (as : List BoardAggregate) : List (BitVec 8) := bytesOf (stream as)

theorem payload_flatten (blocks : List (List BoardAggregate)) :
    payload blocks.flatten = (blocks.map payload).flatten := by
  rw [payload, stream_flatten]
  induction blocks with
  | nil => rfl
  | cons as blocks ih => rw [List.map_cons, List.flatten_cons, bytesOf_append, ih]; rfl

/-- The words of the two parts of a buffer, the first made of complete aggregates, are
decoded one after the other. -/
theorem decodeWords_append (d : AggregateDecoder) (as : List BoardAggregate) (rest : List Word) :
    decodeWords d (stream as ++ rest) =
      ((decodeWords d (stream as)).1 ++ (decodeWords (decodeWords d (stream as)).2 rest).1,
        (decodeWords (decodeWords d (stream as)).2 rest).2) := by
  rw [decodeWords, segments_stream, run_append, ← segments_stream_only]
  rfl

/-- The online decode of `DecodeStage`: one `decode` call for each block, on the same
decoder. The events are those of all calls, and so is the count. -/
def decodeBlocks (d : AggregateDecoder) : List (List (BitVec 8)) → Run Decoded
  | [] => pure ⟨[], 0, d⟩
  | block :: blocks => do
    let r ← decode d block
    let t ← decodeBlocks r.decoder blocks
    pure ⟨r.events ++ t.events, r.count + t.count, t.decoder⟩

theorem decodeBlocks_ok (d : AggregateDecoder) {blocks : List (List (BitVec 8))}
    (h : ∀ block ∈ blocks, block.length < 2 ^ 32) :
    decodeBlocks d blocks = .ok (decoded (run decodeWords d (blocks.map wordsOf))) := by
  induction blocks generalizing d with
  | nil => rfl
  | cons block blocks ih =>
    have hfirst := decode_ok d (h block (by simp))
    have hrest := ih (decodeWords d (wordsOf block)).2 (fun b hb => h b (by simp [hb]))
    simp only [decodeBlocks, hfirst, ok_bind, decoded, hrest, pure_eq_ok, List.map_cons,
      run_cons, List.length_append]

/-- Blocks of complete aggregates are a run over the aggregates, however they are cut. -/
theorem run_blocks (d : AggregateDecoder) (blocks : List (List BoardAggregate)) :
    run decodeWords d (blocks.map stream) = decodeWords d (stream blocks.flatten) := by
  induction blocks generalizing d with
  | nil =>
    show ([], d) = run segmentStep d (segments [])
    rw [segments]
    rfl
  | cons as blocks ih =>
    have hcut : stream (as :: blocks).flatten = stream as ++ stream blocks.flatten := by
      simp only [stream, List.flatten_cons, List.map_append, List.flatten_append]
    rw [List.map_cons, run_cons, ih, hcut, decodeWords_append]

theorem payload_length_le {as : List BoardAggregate} {blocks : List (List BoardAggregate)}
    (h : as ∈ blocks) : (payload as).length ≤ (payload blocks.flatten).length := by
  have hsub : (payload as).Sublist (blocks.map payload).flatten :=
    List.sublist_flatten_of_mem (List.mem_map_of_mem h)
  rw [payload_flatten]
  exact hsub.length_le

theorem decode_payload_append (d : AggregateDecoder) (as : List BoardAggregate)
    (b : List (BitVec 8)) (h : (payload as ++ b).length < 2 ^ 32) :
    decode d (payload as ++ b) =
      .ok (decoded (run decodeWords d [stream as, wordsOf b])) := by
  rw [decode_ok d h, payload, wordsOf_bytesOf, decodeWords_append]
  simp only [run_cons, run_nil, List.append_nil]

theorem wordsOf_payload (as : List BoardAggregate) : wordsOf (payload as) = stream as := by
  have h := wordsOf_bytesOf (stream as) []
  have hnil : wordsOf [] = [] := rfl
  rwa [List.append_nil, hnil, List.append_nil] at h

/-- Cutting a buffer behind complete aggregates, once or at any number of places, changes
neither the events nor their number nor the decoder that is left. -/
theorem decode_block_boundaries (d : AggregateDecoder) (b : List (BitVec 8)) :
    (∀ as : List BoardAggregate, (payload as ++ b).length < 2 ^ 32 →
      ∃ ra rb, decode d (payload as) = .ok ra ∧ decode ra.decoder b = .ok rb ∧
        decode d (payload as ++ b) =
          .ok ⟨ra.events ++ rb.events, ra.count + rb.count, rb.decoder⟩) ∧
    (∀ blocks : List (List BoardAggregate), (payload blocks.flatten ++ b).length < 2 ^ 32 →
      decodeBlocks d (blocks.map payload ++ [b]) = decode d (payload blocks.flatten ++ b)) := by
  constructor
  · intro as h
    have hlen : (payload as).length < 2 ^ 32 ∧ b.length < 2 ^ 32 := by
      rw [List.length_append] at h
      omega
    refine ⟨_, _, decode_ok d hlen.1, decode_ok _ hlen.2, ?_⟩
    rw [decode_payload_append d as b h, wordsOf_payload]
    simp only [decoded, run_cons, run_nil, List.append_nil, List.length_append]
  · intro blocks h
    have hall : ∀ block ∈ blocks.map payload ++ [b], block.length < 2 ^ 32 := by
      intro block hm
      rw [List.length_append] at h
      rcases List.mem_append.mp hm with hm | hm
      · obtain ⟨as, has, rfl⟩ := List.mem_map.mp hm
        have hle := payload_length_le has
        omega
      · obtain rfl := List.mem_singleton.mp hm
        omega
    have hwords : (blocks.map payload ++ [b]).map wordsOf = blocks.map stream ++ [wordsOf b] := by
      simp only [List.map_append, List.map_map, List.map_singleton]
      congr 1
      exact List.map_congr_left fun as _ => wordsOf_payload as
    rw [decodeBlocks_ok d hall, decode_payload_append d _ b h, hwords, run_append, run_blocks]
    rfl

def hit (board : ℕ) : BoardAggregate where
  words := [0xA0000008#32, BitVec.ofNat 32 (board * 2 ^ 27 + 1), 0, 0,
    4, 0x60000000#32, 1000, 0x000A0123#32]
  long := Nat.le_add_left 4 4
  sync := by
    show isSync 0xA0000008#32 = true
    decide
  announced := by
    show aggLength 0xA0000008#32 = 8
    decide

theorem decode_block_boundaries_hits :
    (∃ ra rb, decode (registerBoard {} 1 .pha "V1730" 2000) (payload [hit 1]) = .ok ra ∧
      decode ra.decoder [0xFF] = .ok rb ∧
      decode (registerBoard {} 1 .pha "V1730" 2000) (payload [hit 1] ++ [0xFF]) =
        .ok ⟨ra.events ++ rb.events, ra.count + rb.count, rb.decoder⟩) ∧
    decodeBlocks (registerBoard {} 1 .pha "V1730" 2000)
        ([[hit 1], [hit 1, hit 2]].map payload ++ [[0xFF]]) =
      decode (registerBoard {} 1 .pha "V1730" 2000)
        (payload [hit 1, hit 1, hit 2] ++ [0xFF]) :=
  have h := decode_block_boundaries (registerBoard {} 1 .pha "V1730" 2000) [0xFF]
  ⟨h.1 [hit 1] (by decide), h.2 [[hit 1], [hit 1, hit 2]] (by decide)⟩

end BoardStream
end CaenDaq
