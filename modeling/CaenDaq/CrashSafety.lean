import CaenDaq.FileDecode

/-!
# When a run breaks off

Nothing is done at the end of a run that the files would need to be readable. Whenever it
breaks off, what is on the disk decodes to events of the run, and as long as nothing fails
to the first of them.
-/

namespace CaenDaq
namespace CrashSafety

open Checked Transducer AggregateDecoder AggregateStream DecoderRefinement BoardStream
open CutStream Readout FiledBlocks FileAggregates FileDecode
open RawFileWriter hiding payload

variable {n : ℕ} {cfg : WriterConfig}

/-- As long as nothing fails the files hold all that was written but the end of it, and that
too once it is flushed. -/
theorem onDisk_finds {boards : List XdaqBoardDef} {epochStartTime : Word}
    (hheader : Headed cfg boards epochStartTime) {s : Readout n} (hsound : Sound s)
    {sent : List (Fin n × List BoardAggregate)}
    (hstocked : Stocked cfg (sent.map fun b => (b.1, payload b.2)) s.traffic) :
    ∃ kept, List.Forall₂ Finds (onDisk s.loop.writer) kept ∧ kept.flatten <+: all sent ∧
      (s.loop.dirty = false ∨ s.loop.writer.closed = true → kept.flatten = all sent) := by
  have hall : ((sent.map (·.2)).filter (· ≠ [])).flatten = all sent := flatten_filter _
  cases hclosed : s.loop.writer.closed with
  | true =>
    obtain ⟨hkept, hheads, hblocks, hnone⟩ := hstocked.shelved hsound.unfailed hclosed
    rw [bytes_payload] at hblocks
    obtain ⟨pieces, hpieces, hflat⟩ := exists_pieces_eq hblocks
    have hfinds := parts_find hheader hkept hheads hsound.complete hpieces
    have hend : (pieces.map List.flatten).flatten = all sent := by
      rw [← List.flatten_flatten, hflat, hall]
    change s.loop.writer.file.isOpen = false at hnone
    rw [onDisk, hnone, if_neg Bool.false_ne_true, List.append_nil]
    exact ⟨_, hfinds, by rw [hend], fun _ => hend⟩
  | false =>
    have hfiled : Filed cfg _ s.loop.writer := hstocked.filed hsound.unfailed hclosed
    have hblocks : (s.loop.writer.parts.map Part.blocks ++ [s.loop.writer.blocks]).flatten =
        ((sent.map (·.2)).filter (· ≠ [])).map payload := by
      rw [List.flatten_append, List.flatten_singleton, hfiled.blocks, bytes_payload]
    obtain ⟨pieces, hpieces, hflat⟩ := exists_pieces_eq hblocks
    obtain ⟨first, others, rfl, hfirst, hothers⟩ := List.map_eq_append_iff.mp hpieces.symm
    obtain ⟨last, rfl, hlast⟩ := List.map_eq_singleton_iff.mp hothers
    have hfinds := parts_find hheader hfiled.parts hfiled.headers hsound.complete hfirst.symm
    have hdevice : s.loop.writer.file.device <+:
        s.loop.writer.header ++ (last.map payload).flatten := by
      rw [hlast, ← hfiled.written]
      exact List.prefix_append _ _
    obtain ⟨kept, hkept, hprefix⟩ := begins_finds hheader ⟨_, hfiled.header, hdevice⟩
    have hend : (first.map List.flatten).flatten ++ last.flatten = all sent := by
      rw [← hall, ← hflat, List.flatten_append, List.flatten_append, List.flatten_singleton,
        List.flatten_flatten]
    have hfiles : onDisk s.loop.writer =
        s.loop.writer.parts.map Part.content ++ [s.loop.writer.file.device] := by
      rw [onDisk, hfiled.isOpen, if_pos rfl]
    have hclean : s.loop.dirty = false → kept = last.flatten := by
      intro hdirty
      rcases hsound.flushed hclosed hdirty with hnone | hempty
      · rw [hnone, List.map_eq_nil_iff] at hlast
        rw [hlast] at hprefix ⊢
        exact List.prefix_nil.mp hprefix
      · have hwritten := hfiled.written
        rw [BufferedStream.written, hempty, List.append_nil, ← hlast] at hwritten
        have hfull : Finds _ last.flatten := full_finds hheader hfiled.header
        rw [← hwritten] at hfull
        have hlength := congrArg List.length (hkept.symm.trans hfull)
        rw [List.length_map, List.length_map] at hlength
        exact hprefix.eq_of_length hlength
    rw [hfiles]
    refine ⟨first.map List.flatten ++ [kept], ?_, ?_, ?_⟩
    · exact List.rel_append hfinds (List.Forall₂.cons hkept List.Forall₂.nil)
    · rw [List.flatten_append, List.flatten_singleton, ← hend]
      exact (List.prefix_append_right_inj _).mpr hprefix
    · rintro (hdirty | hno)
      · rw [List.flatten_append, List.flatten_singleton, hclean hdirty, hend]
      · cases hno

/-- At any moment of a first run of complete aggregates in which nothing fails, what is on the
disk, in files of less than 4 GiB, decodes to the first events of the blocks written so far,
and to all of them if the writer has flushed since. A block with an aggregate that is not
complete is not covered: decoded by itself it may give fewer events. -/
theorem disk_decodes {before : List Daq.Call} {o : Launches}
    {ids : Fin (Daq.history cfg {} (before ++ [.start o])).runners.length → ℕ}
    {schedule : List (Action _)} {s : Readout _} (h : Recorded cfg before o ids schedule s)
    (hfine : ∀ a ∈ schedule, Delivery.Fine a) {boards : List XdaqBoardDef} {epochStartTime : Word}
    (hheader : Headed cfg boards epochStartTime)
    (hsize : ∀ file ∈ onDisk s.loop.writer, file.length < 2 ^ 32) (d : AggregateDecoder) :
    ∃ r t, decodeBlocks d (onDisk s.loop.writer) = .ok r ∧
      decodeBlocks d (s.written.map (·.2)) = .ok t ∧ r.events <+: t.events ∧
      (s.loop.dirty = false ∨ s.loop.writer.closed = true → r.events = t.events) := by
  have hsound := h.sound hfine
  obtain ⟨given, hstocked⟩ := h.stocked
  obtain rfl : given = s.written := hstocked.written hsound.unfailed
  obtain ⟨all_sent, hsent, hown, _⟩ := exists_sent (fun i => h.received i)
    (fun i => hstocked.pipeline i)
  rw [List.append_assoc] at hsent
  obtain ⟨sent, waiting, rfl, hwritten, _⟩ := List.map_eq_append_iff.mp hsent.symm
  rw [← hwritten] at hstocked
  obtain ⟨kept, hkept, hprefix, hfull⟩ := onDisk_finds hheader hsound hstocked
  have hblocks : ∀ as ∈ sent.map (·.2), (payload as).length < 2 ^ 32 :=
    List.forall_mem_map.mpr fun b hb => hown.size b (List.mem_append_left _ hb)
  have hmap : s.written.map (·.2) = (sent.map (·.2)).map payload := by
    rw [← hwritten, List.map_map, List.map_map]
    rfl
  have hdecoded : decodeBlocks d (s.written.map (·.2)) =
      .ok (decoded (decodeWords d (stream (all sent)))) := by
    rw [hmap]
    exact BoardIsolation.decodeBlocks_payload d hblocks
  refine ⟨_, _, decodeBlocks_finds d hkept hsize, hdecoded, ?_, fun hclean => ?_⟩
  · obtain ⟨rest, hrest⟩ := hprefix
    have hstream : stream (all sent) = stream kept.flatten ++ stream rest := by
      rw [← hrest, stream, List.map_append, List.flatten_append]
      rfl
    rw [hstream, decodeWords_append]
    exact List.prefix_append _ _
  · rw [hfull hclean]

/-- The run of the pair up to where the writer has nothing to do. -/
theorem disk_decodes_pair : ∃ s, Transition.run (step pairConfig) (ofDaq pairDaq)
    (pairSchedule.take 13) = some s ∧ s.loop.dirty = false ∧
      ∃ r t, decodeBlocks (registerBoardInfo {} (pairInfo 0)) (onDisk s.loop.writer) = .ok r ∧
        decodeBlocks (registerBoardInfo {} (pairInfo 0)) (s.written.map (·.2)) = .ok t ∧
        r.events <+: t.events ∧
        (s.loop.dirty = false ∨ s.loop.writer.closed = true → r.events = t.events) := by
  have hmap : (Transition.run (step pairConfig) (ofDaq pairDaq) (pairSchedule.take 13)).map
      (fun s => (s.loop.dirty, decide (∀ file ∈ onDisk s.loop.writer, file.length < 2 ^ 32))) =
        some (false, true) := by decide +kernel
  obtain ⟨s, hrun, hs⟩ := Option.map_eq_some_iff.mp hmap
  obtain ⟨hdirty, hsize⟩ := Prod.mk.inj hs
  have hrecorded : Recorded pairConfig pair {} (fun i => (pairInfo i).boardRegId)
      (pairSchedule.take 13) s :=
    ⟨by decide +kernel, by decide +kernel, fun _ _ heq => Fin.ext (Nat.succ_injective heq),
      fun i block hread => pair_sends i block (List.mem_of_mem_take hread), hrun⟩
  exact ⟨s, hrun, hdirty, disk_decodes hrecorded
    (fun a ha => pair_fine a (List.mem_of_mem_take ha)) pairConfig_headed
    (of_decide_eq_true hsize) _⟩

end CrashSafety
end CaenDaq
