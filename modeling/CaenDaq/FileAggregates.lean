import CaenDaq.BoardIsolation
import CaenDaq.CutStream
import CaenDaq.FiledBlocks

/-!
# The aggregates in the part files

Boards send complete aggregates, and the writer puts whole blocks into its files. So a file
holds the aggregates of its blocks, and what is left of a file the first of them.
-/

namespace CaenDaq
namespace FileAggregates

open Checked Transducer AggregateDecoder AggregateStream DecoderRefinement BoardStream
open CutStream Readout FiledBlocks DataFileHeader
open RawFileWriter hiding payload

variable {n : ℕ} {cfg : WriterConfig}

/-- A block as a working board sends it: complete aggregates, all with the board's own id.
The library gives its length in 32 bits. -/
structure Own (id : ℕ) (block : RawBlock) : Prop where
  complete : ∃ as, block = payload as ∧ ∀ a ∈ as, boardOf a.words = id
  size : block.length < 2 ^ 32

/-- Blocks of several boards as the aggregates in them. -/
structure Sent (ids : Fin n → ℕ) (sent : List (Fin n × List BoardAggregate)) : Prop where
  own : ∀ b ∈ sent, ∀ a ∈ b.2, boardOf a.words = ids b.1
  size : ∀ b ∈ sent, (payload b.2).length < 2 ^ 32

theorem exists_aggregates {ids : Fin n → ℕ} {given : List (Fin n × RawBlock)}
    (h : ∀ b ∈ given, Own (ids b.1) b.2) :
    ∃ sent : List (Fin n × List BoardAggregate),
      given = sent.map (fun b => (b.1, payload b.2)) ∧ Sent ids sent := by
  induction given with
  | nil =>
    exact ⟨[], rfl, fun b hb => absurd hb List.not_mem_nil, fun b hb => absurd hb List.not_mem_nil⟩
  | cons b given ih =>
    obtain ⟨sent, hsent, hids, hsizes⟩ := ih fun c hc => h c (List.mem_cons_of_mem _ hc)
    obtain ⟨⟨as, has, hown⟩, hsize⟩ := h b List.mem_cons_self
    rw [has] at hsize
    refine ⟨(b.1, as) :: sent, ?_, List.forall_mem_cons.mpr ⟨hown, hids⟩,
      List.forall_mem_cons.mpr ⟨hsize, hsizes⟩⟩
    rw [List.map_cons, ← hsent, ← has]

def all (sent : List (Fin n × List BoardAggregate)) : List BoardAggregate :=
  (sent.map (·.2)).flatten

def share (i : Fin n) (sent : List (Fin n × List BoardAggregate)) : List (List BoardAggregate) :=
  (sent.filter (·.1 = i)).map (·.2)

theorem share_payload (i : Fin n) (sent : List (Fin n × List BoardAggregate)) :
    Delivery.ofBoard i (sent.map fun b => (b.1, payload b.2)) = (share i sent).map payload := by
  rw [Delivery.ofBoard, List.filter_map, List.map_map, share, List.map_map]
  rfl

theorem ofBoard_all {ids : Fin n → ℕ} (hids : Function.Injective ids)
    {sent : List (Fin n × List BoardAggregate)} (hsent : Sent ids sent) (i : Fin n) :
    BoardIsolation.ofBoard (ids i) (all sent) = (share i sent).flatten := by
  have hown := hsent.own
  clear hsent
  induction sent with
  | nil => rfl
  | cons b sent ih =>
    have hrest := ih fun c hc => hown c (List.mem_cons_of_mem _ hc)
    have hboard := hown b List.mem_cons_self
    rw [all, List.map_cons, List.flatten_cons, BoardIsolation.ofBoard, List.filter_append]
    change b.2.filter _ ++ BoardIsolation.ofBoard (ids i) (all sent) = _
    rw [hrest]
    show _ ++ (share i sent).flatten = (((b :: sent).filter (·.1 = i)).map (·.2)).flatten
    rw [List.filter_cons]
    by_cases hi : b.1 = i
    · have hkeep : (b.2.filter fun a => boardOf a.words = ids i) = b.2 := by
        apply List.filter_eq_self.mpr
        intro a ha
        rw [hboard a ha, hi]
        exact decide_eq_true rfl
      rw [hkeep, if_pos (decide_eq_true hi)]
      rfl
    · have hskip : (b.2.filter fun a => boardOf a.words = ids i) = [] := by
        apply List.filter_eq_nil_iff.mpr
        intro a ha hsame
        rw [hboard a ha] at hsame
        exact hi (hids (of_decide_eq_true hsame))
      rw [hskip, if_neg (by simpa using hi), List.nil_append]
      rfl

theorem payload_eq_nil {as : List BoardAggregate} : payload as = [] ↔ as = [] := by
  constructor
  · intro h
    cases as with
    | nil => rfl
    | cons a as =>
      have hlength := congrArg List.length h
      have hlong : 4 ≤ a.words.length := a.long
      rw [payload, bytesOf_length, stream_cons, List.length_append, List.length_nil] at hlength
      omega
  · rintro rfl
    rfl

/-- What was filed of some blocks falls apart into aggregates as the blocks do. -/
theorem exists_pieces {filed : List (List RawBlock)} {blocks : List (List BoardAggregate)}
    (h : filed.flatten <+: blocks.map payload) :
    ∃ pieces : List (List (List BoardAggregate)),
      filed = pieces.map (List.map payload) ∧ pieces.flatten <+: blocks := by
  induction filed generalizing blocks with
  | nil => exact ⟨[], rfl, List.nil_prefix⟩
  | cons piece filed ih =>
    rw [List.flatten_cons] at h
    obtain ⟨rest, hrest⟩ := h
    rw [List.append_assoc] at hrest
    obtain ⟨first, others, rfl, hfirst, hothers⟩ := List.map_eq_append_iff.mp hrest.symm
    obtain ⟨pieces, hpieces, hprefix⟩ := ih ⟨rest, hothers.symm⟩
    refine ⟨first :: pieces, ?_, ?_⟩
    · rw [List.map_cons, ← hpieces, hfirst]
    · rw [List.flatten_cons]
      exact (List.prefix_append_right_inj first).mpr hprefix

theorem exists_pieces_eq {filed : List (List RawBlock)} {blocks : List (List BoardAggregate)}
    (h : filed.flatten = blocks.map payload) :
    ∃ pieces : List (List (List BoardAggregate)),
      filed = pieces.map (List.map payload) ∧ pieces.flatten = blocks := by
  have hself : filed.flatten <+: blocks.map payload := by rw [h]
  obtain ⟨pieces, hpieces, hprefix⟩ := exists_pieces hself
  refine ⟨pieces, hpieces, hprefix.eq_of_length ?_⟩
  have hlength := congrArg List.length h
  rwa [hpieces, ← List.map_flatten, List.length_map, List.length_map] at hlength

theorem filled_payload (blocks : List (List BoardAggregate)) :
    filled (blocks.map payload) = (blocks.filter (· ≠ [])).map payload := by
  rw [filled, List.filter_map]
  congr 1
  apply List.filter_congr
  intro as _
  simp [payload_eq_nil]

theorem bytes_payload (sent : List (Fin n × List BoardAggregate)) :
    bytes (sent.map fun b => (b.1, payload b.2)) =
      ((sent.map (·.2)).filter (· ≠ [])).map payload := by
  rw [← filled_payload, bytes, List.map_map, List.map_map]
  rfl

theorem flatten_filter (blocks : List (List BoardAggregate)) :
    (blocks.filter (· ≠ [])).flatten = blocks.flatten := by
  induction blocks with
  | nil => rfl
  | cons as blocks ih =>
    by_cases has : as = []
    · rw [List.filter_cons_of_neg (by simp [has]), ih, has]
      rfl
    · rw [List.filter_cons_of_pos (by simp [has]), List.flatten_cons, List.flatten_cons, ih]

theorem pack_top (b : XdaqBoardDef) :
    (packBoardDef b).toNat / 2 ^ 28 = b.boardRegId.toNat / 2 ^ 4 := by
  have htop : packBoardDef b >>> 28 = (b.boardRegId >>> 4).setWidth 32 := by
    apply BitVec.eq_of_getLsbD_eq
    intro i hi
    simp only [BitVec.getLsbD_ushiftRight, getLsbD_packBoardDef, BitVec.getLsbD_setWidth]
    by_cases hlow : i < 4
    · have h1 : ¬ (28 + i < 6) := by omega
      have h2 : ¬ (28 + i < 12) := by omega
      have h3 : ¬ (28 + i < 16) := by omega
      have h4 : ¬ (28 + i < 24) := by omega
      have h5 : 28 + i < 32 := by omega
      have h6 : 24 ≤ 28 + i := by omega
      have h7 : 28 + i - 24 = 4 + i := by omega
      simp [h1, h2, h3, h4, h5, h6, h7, hi]
    · have h1 : ¬ (28 + i < 32) := by omega
      have h2 : b.boardRegId.getLsbD (4 + i) = false := BitVec.getLsbD_of_ge _ _ (by omega)
      simp [h1, h2]
  have hnat := congrArg BitVec.toNat htop
  rw [BitVec.toNat_ushiftRight, Nat.shiftRight_eq_div_pow, BitVec.toNat_setWidth,
    BitVec.toNat_ushiftRight, Nat.shiftRight_eq_div_pow] at hnat
  rw [hnat]
  have := b.boardRegId.isLt
  exact Nat.mod_eq_of_lt (by omega)

theorem filler_header_iff {boards : List XdaqBoardDef} (hcount : 6 + boards.length < 2 ^ 28)
    (epochStartTime : Word) :
    Filler (buildXdaqHeader boards epochStartTime) ↔
      isSync epochStartTime = false ∧ ∀ b ∈ boards, b.boardRegId.toNat / 2 ^ 4 ≠ 0xA := by
  have hnb : (BitVec.ofNat 32 boards.length : Word).toNat = boards.length :=
    Nat.mod_eq_of_lt (by omega)
  have hsize : (6 + BitVec.ofNat 32 boards.length : Word).toNat = 6 + boards.length := by
    rw [BitVec.toNat_add, hnb]
    exact Nat.mod_eq_of_lt (show 6 + boards.length < 2 ^ 32 by omega)
  have hfirst : (6 + BitVec.ofNat 32 boards.length : Word).toNat < 2 ^ 28 := by rwa [hsize]
  have hthird : (BitVec.ofNat 32 boards.length : Word).toNat < 2 ^ 28 := by
    rw [hnb]
    omega
  have hsmall : ∀ {w : Word}, w.toNat < 2 ^ 28 → isSync w = false := by
    intro w hw
    rw [isSync, Nat.div_eq_of_lt hw]
    rfl
  have hboards : (∀ w ∈ boards.map packBoardDef, isSync w = false) ↔
      ∀ b ∈ boards, b.boardRegId.toNat / 2 ^ 4 ≠ 0xA := by
    rw [List.forall_mem_map]
    refine forall₂_congr fun b _ => ?_
    rw [isSync, pack_top, decide_eq_false_iff_not]
  rw [Filler, buildXdaqHeader, List.forall_mem_append, hboards]
  simp only [List.forall_mem_cons, hsmall hfirst, hsmall hthird, true_and]
  simp [isSync, kXdaqKeyFrame]

/-- A writer whose header is that of the run, none of its words with the mark of an aggregate. -/
structure Headed (cfg : WriterConfig) (boards : List XdaqBoardDef) (epochStartTime : Word) :
    Prop where
  header : cfg.header = bytesOf (buildXdaqHeader boards epochStartTime)
  count : 6 + boards.length < 2 ^ 28
  epoch : isSync epochStartTime = false
  ids : ∀ b ∈ boards, b.boardRegId.toNat / 2 ^ 4 ≠ 0xA

variable {boards : List XdaqBoardDef} {epochStartTime : Word}
  (hheader : Headed cfg boards epochStartTime)

include hheader

theorem filler_header : Filler (buildXdaqHeader boards epochStartTime) :=
  (filler_header_iff hheader.count epochStartTime).mpr ⟨hheader.epoch, hheader.ids⟩

theorem begins_finds {pieces : List (List BoardAggregate)} {file : List (BitVec 8)}
    (h : Begins cfg (pieces.map payload) file) :
    ∃ kept, Finds file kept ∧ kept <+: pieces.flatten := by
  obtain ⟨head, hhead, hfile⟩ := h
  rw [← payload_flatten] at hfile
  rcases hhead with rfl | rfl
  · have hnone : Filler [] := fun w hw => absurd hw List.not_mem_nil
    exact ⟨_, finds_cut hnone hfile, whole_prefix _ _⟩
  · rw [hheader.header] at hfile
    exact ⟨_, finds_cut (filler_header hheader) hfile, whole_prefix _ _⟩

theorem full_finds {pieces : List (List BoardAggregate)} {head : List (BitVec 8)}
    (hhead : MayHead cfg head) : Finds (head ++ (pieces.map payload).flatten) pieces.flatten := by
  rw [← payload_flatten]
  rcases hhead with rfl | rfl
  · exact finds_all (fun w hw => absurd hw List.not_mem_nil) _
  · rw [hheader.header]
    exact finds_all (filler_header hheader) _

theorem part_finds {p : Part} (hkept : p.Kept) (hhead : MayHead cfg p.header)
    (hcomplete : p.Complete)
    {pieces : List (List BoardAggregate)} (hpieces : p.blocks = pieces.map payload) :
    Finds p.content pieces.flatten := by
  have hflat : p.blocks.flatten = payload pieces.flatten := by rw [hpieces, payload_flatten]
  by_cases hempty : pieces.flatten = []
  · obtain ⟨kept, hkept, hprefix⟩ := begins_finds hheader
      (show Begins cfg (pieces.map payload) p.content from
        ⟨p.header, hhead, hpieces ▸ hkept.initial⟩)
    rw [hempty] at hprefix ⊢
    rwa [List.prefix_nil.mp hprefix] at hkept
  · rw [hkept.complete.mpr (hcomplete (by rwa [hflat, ne_eq, payload_eq_nil])), hpieces]
    exact full_finds hheader hhead

/-- The parts of a run without a failure hold all the aggregates of their blocks. -/
theorem parts_find {parts : List Part} (hkept : ∀ p ∈ parts, p.Kept)
    (hheads : ∀ p ∈ parts, MayHead cfg p.header) (hcomplete : ∀ p ∈ parts, p.Complete)
    {pieces : List (List (List BoardAggregate))}
    (hpieces : parts.map Part.blocks = pieces.map (List.map payload)) :
    List.Forall₂ Finds (parts.map Part.content) (pieces.map List.flatten) := by
  induction parts generalizing pieces with
  | nil =>
    rw [List.map_nil, List.nil_eq, List.map_eq_nil_iff] at hpieces
    rw [hpieces]
    exact List.Forall₂.nil
  | cons p parts ih =>
    cases pieces with
    | nil => cases hpieces
    | cons piece pieces =>
      rw [List.map_cons, List.map_cons, List.cons.injEq] at hpieces
      refine List.Forall₂.cons ?_ ?_
      · exact part_finds hheader (hkept p List.mem_cons_self) (hheads p List.mem_cons_self)
          (hcomplete p List.mem_cons_self) hpieces.1
      · exact ih (fun q hq => hkept q (List.mem_cons_of_mem _ hq))
          (fun q hq => hheads q (List.mem_cons_of_mem _ hq))
          (fun q hq => hcomplete q (List.mem_cons_of_mem _ hq)) hpieces.2

end FileAggregates
end CaenDaq
