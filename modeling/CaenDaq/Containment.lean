import CaenDaq.Ledger

/-!
# Corruption stays inside its aggregate

What an aggregate gives, the times apart, depends on its own words and on the kinds of
the boards. The cached layout, the trace buffer and the clocks that earlier data left
behind do not enter, so arbitrary words in one aggregate change no event of another.
-/

namespace CaenDaq
namespace Containment

open Checked Transducer DataFrame AggregateDecoder AggregateStream DecoderRefinement BoardStream
  BoardIsolation Ledger

/-- One `decode` for each aggregate of a sequence, on one decoder. -/
def decodeEach (d : AggregateDecoder) : List BoardAggregate → Run (List Decoded)
  | [] => pure []
  | a :: as => do
    let r ← decode d (payload [a])
    let rest ← decodeEach r.decoder as
    pure (r :: rest)

def lastDecoder (d : AggregateDecoder) : List Decoded → AggregateDecoder
  | [] => d
  | r :: rs => lastDecoder r.decoder rs

/-- The calls give `rs`, one for each aggregate; and cut into blocks in any way, the same
sequence gives the same events and leaves the same decoder. -/
def Gives (d : AggregateDecoder) (as : List BoardAggregate) (rs : List Decoded) : Prop :=
  decodeEach d as = .ok rs ∧
    ∀ blocks : List (List BoardAggregate), blocks.flatten = as →
      (∀ block ∈ blocks, (payload block).length < 2 ^ 32) →
      ∃ r, decodeBlocks d (blocks.map payload) = .ok r ∧
        r.events = rs.flatMap Decoded.events ∧ r.decoder = lastDecoder d rs

def timeless (r : Decoded) : List DecodedEvent := r.events.map withoutTime

def corruptCount (d : AggregateDecoder) : ℕ := d.tally.corrupt

theorem altered_head (a : BoardAggregate) (body : List Word) :
    (a.words.take kAggHeaderWords ++ body).getD 0 0 = a.words.getD 0 0 := by
  rcases a with ⟨_ | ⟨sync, ws⟩, hlong, _, _⟩
  · exact absurd hlong (by decide)
  · rfl

/-- An aggregate with the words after its header replaced by as many others. -/
def altered (a : BoardAggregate) (body : List Word)
    (hbody : body.length + kAggHeaderWords = a.words.length) : BoardAggregate where
  words := a.words.take kAggHeaderWords ++ body
  long := by
    rw [List.length_append, List.length_take, Nat.min_eq_left a.long]
    exact Nat.le_add_right _ _
  sync := by
    rw [altered_head]
    exact a.sync
  announced := by
    rw [altered_head, a.announced, List.length_append, List.length_take, Nat.min_eq_left a.long,
      Nat.add_comm, hbody]

def eachOf (d : AggregateDecoder) : List BoardAggregate → List Decoded
  | [] => []
  | a :: as =>
    decoded (segmentStep d (.aggregate a.words)) ::
      eachOf (segmentStep d (.aggregate a.words)).2 as

theorem payload_short (a : BoardAggregate) : (payload [a]).length < 2 ^ 32 := by
  have hlen := a.announced
  have hlt : aggLength (a.words.getD 0 0) < 2 ^ 28 := Nat.mod_lt _ (by decide)
  rw [payload, bytesOf_length, stream_cons, stream_nil, List.append_nil]
  omega

theorem decodeWords_one (d : AggregateDecoder) (a : BoardAggregate) :
    decodeWords d (stream [a]) = segmentStep d (.aggregate a.words) := by
  rw [decodeWords, segments_stream_only, List.map_singleton, run_cons, run_nil, List.append_nil]

theorem decodeEach_ok (d : AggregateDecoder) (as : List BoardAggregate) :
    decodeEach d as = .ok (eachOf d as) := by
  induction as generalizing d with
  | nil => rfl
  | cons a as ih =>
    have hone := decode_ok d (payload_short a)
    rw [wordsOf_payload, decodeWords_one] at hone
    have hrest := ih (segmentStep d (.aggregate a.words)).2
    simp only [decodeEach, hone, ok_bind, decoded, hrest, pure_eq_ok, eachOf]

theorem eachOf_run (d : AggregateDecoder) (as : List BoardAggregate) :
    (eachOf d as).flatMap Decoded.events =
        (run segmentStep d (as.map fun a => .aggregate a.words)).1 ∧
      lastDecoder d (eachOf d as) =
        (run segmentStep d (as.map fun a => .aggregate a.words)).2 := by
  induction as generalizing d with
  | nil => exact ⟨rfl, rfl⟩
  | cons a as ih =>
    obtain ⟨hevents, hlast⟩ := ih (segmentStep d (.aggregate a.words)).2
    rw [eachOf, List.flatMap_cons, hevents, lastDecoder, decoded, hlast, List.map_cons, run_cons]
    exact ⟨rfl, rfl⟩

theorem gives_eachOf (d : AggregateDecoder) (as : List BoardAggregate) :
    Gives d as (eachOf d as) := by
  refine ⟨decodeEach_ok d as, fun blocks hblocks hsize => ⟨_, decodeBlocks_payload d hsize, ?_⟩⟩
  obtain ⟨hevents, hlast⟩ := eachOf_run d as
  rw [hevents, hlast, hblocks, decodeWords, segments_stream_only]
  exact ⟨rfl, rfl⟩

theorem eachOf_append (d : AggregateDecoder) (as as' : List BoardAggregate) :
    eachOf d (as ++ as') = eachOf d as ++ eachOf (lastDecoder d (eachOf d as)) as' := by
  induction as generalizing d with
  | nil => rfl
  | cons a as ih =>
    rw [List.cons_append, eachOf, eachOf, ih]
    rfl

theorem eachOf_length (d : AggregateDecoder) (as : List BoardAggregate) :
    (eachOf d as).length = as.length := by
  induction as generalizing d with
  | nil => rfl
  | cons a as ih => rw [eachOf, List.length_cons, ih, List.length_cons]

/-- Decoders that know the same kinds of boards give the same events for an aggregate, the
times apart, and count the same corruption. -/
theorem segmentStep_alike {d d' : AggregateDecoder} (h : kindOf d' = kindOf d) (seg : Segment) :
    (segmentStep d' seg).1.map withoutTime = (segmentStep d seg).1.map withoutTime ∧
      kindOf (segmentStep d' seg).2 = kindOf (segmentStep d seg).2 ∧
      corruptCount (segmentStep d' seg).2 + corruptCount d =
        corruptCount (segmentStep d seg).2 + corruptCount d' := by
  obtain ⟨hout, hkind, _, htally⟩ := segmentStep_spec d seg
  obtain ⟨hout', hkind', _, htally'⟩ := segmentStep_spec d' seg
  refine ⟨by rw [hout, hout', h], by rw [hkind, hkind', h], ?_⟩
  have hcorrupt := congrArg Tally.corrupt htally
  have hcorrupt' := congrArg Tally.corrupt htally'
  rw [h] at hcorrupt'
  unfold corruptCount
  rw [hcorrupt, hcorrupt']
  dsimp only
  omega

theorem eachOf_alike {d d' : AggregateDecoder} (h : kindOf d' = kindOf d) {n n' : ℕ}
    (hn : corruptCount d' + n' = corruptCount d + n) (as : List BoardAggregate) :
    (eachOf d' as).map timeless = (eachOf d as).map timeless ∧
      (eachOf d' as).map (fun r => corruptCount r.decoder + n') =
        (eachOf d as).map fun r => corruptCount r.decoder + n := by
  induction as generalizing d d' with
  | nil => exact ⟨rfl, rfl⟩
  | cons a as ih =>
    obtain ⟨hout, hkind, hcorrupt⟩ := segmentStep_alike h (.aggregate a.words)
    have hnext : corruptCount (segmentStep d' (.aggregate a.words)).2 + n' =
        corruptCount (segmentStep d (.aggregate a.words)).2 + n := by omega
    obtain ⟨hrest, hrestCorrupt⟩ := ih hkind hnext
    rw [eachOf, eachOf]
    refine ⟨?_, ?_⟩
    · rw [List.map_cons, List.map_cons, hrest]
      exact congrArg (· :: _) hout
    · rw [List.map_cons, List.map_cons, hrestCorrupt]
      exact congrArg (· :: _) hnext

/-- An aggregate raises the count of corruption by one at most. -/
theorem segmentStep_corrupt (d : AggregateDecoder) (seg : Segment) :
    corruptCount d ≤ corruptCount (segmentStep d seg).2 ∧
      corruptCount (segmentStep d seg).2 ≤ corruptCount d + 1 := by
  have hcorrupt := congrArg Tally.corrupt (segmentStep_spec d seg).2.2.2
  have hone : corruptions (kindOf d) seg ≤ 1 := by
    unfold corruptions
    split <;> decide
  unfold corruptCount
  rw [hcorrupt]
  dsimp only
  omega

/-- In any sequence of complete aggregates, and whatever the decoder has seen before, the
words of one aggregate after its header can be replaced by any others. The calls before it
give the same, the calls after it the same events but for their times. The count of corruption
moves by one at most over the altered aggregate, and as before over the others. For what is
left behind by earlier data does not matter: two decoders that know the same kinds of boards
lay out every aggregate alike. -/
theorem corruption_contained (d : AggregateDecoder) (before after : List BoardAggregate)
    (a : BoardAggregate) (body : List Word)
    (hbody : body.length + kAggHeaderWords = a.words.length) :
    (∃ rb r rc r' rc',
      Gives d (before ++ a :: after) (rb ++ r :: rc) ∧
        Gives d (before ++ altered a body hbody :: after) (rb ++ r' :: rc') ∧
        rb.length = before.length ∧ rc'.map timeless = rc.map timeless ∧
        (corruptCount (lastDecoder d rb) ≤ corruptCount r'.decoder ∧
          corruptCount r'.decoder ≤ corruptCount (lastDecoder d rb) + 1) ∧
        rc'.map (fun x => corruptCount x.decoder + corruptCount r.decoder) =
          rc.map fun x => corruptCount x.decoder + corruptCount r'.decoder) ∧
    ∀ d', kindOf d' = kindOf d → ∀ as, ∃ rs rs', decodeEach d as = .ok rs ∧
      decodeEach d' as = .ok rs' ∧ rs'.map timeless = rs.map timeless := by
  constructor
  · let e := lastDecoder d (eachOf d before)
    have hkind : kindOf (segmentStep e (.aggregate (altered a body hbody).words)).2 =
        kindOf (segmentStep e (.aggregate a.words)).2 := by
      rw [(segmentStep_spec e _).2.1, (segmentStep_spec e _).2.1]
    obtain ⟨htimeless, hcorrupt⟩ := eachOf_alike hkind (Nat.add_comm _ _) after
    have hgives := gives_eachOf d (before ++ a :: after)
    have hgives' := gives_eachOf d (before ++ altered a body hbody :: after)
    rw [eachOf_append] at hgives hgives'
    exact ⟨eachOf d before, _, _, _, _, hgives, hgives', eachOf_length d before, htimeless,
      segmentStep_corrupt e _, hcorrupt⟩
  · intro d' h as
    exact ⟨_, _, decodeEach_ok d as, decodeEach_ok d' as,
      (eachOf_alike h (Nat.add_comm _ _) as).1⟩

/-- The middle one of three aggregates with all bits set behind its header. -/
theorem corruption_contained_garbled : ∃ rb r rc r' rc',
    Gives (registerBoard {} 1 .pha "V1730" 2000) [hit 1, hit 1, hit 1] (rb ++ r :: rc) ∧
      Gives (registerBoard {} 1 .pha "V1730" 2000)
        [hit 1, altered (hit 1) (List.replicate 4 0xFFFFFFFF#32) rfl, hit 1] (rb ++ r' :: rc') ∧
      rb.length = 1 ∧ rc'.map timeless = rc.map timeless := by
  obtain ⟨⟨rb, r, rc, r', rc', hgives, hgives', hlength, htimeless, _⟩, _⟩ :=
    corruption_contained (registerBoard {} 1 .pha "V1730" 2000) [hit 1] [hit 1] (hit 1)
      (List.replicate 4 0xFFFFFFFF#32) rfl
  exact ⟨rb, r, rc, r', rc', hgives, hgives', hlength, htimeless⟩

end Containment
end CaenDaq
