import CaenDaq.MetricLines
import Mathlib.Data.Nat.Digits.Defs

/-!
# The lines of a batch are metrics

When every line of `formatGraphite` is a path, a value and a time for Carbon, and that the
paths of a batch tell boards, channels and metrics apart.
-/

namespace CaenDaq
namespace MetricLines

open Separated

def Plain (c : Char) : Prop := isAlnum c = true ∨ c = '-' ∨ c = '_'

instance (c : Char) : Decidable (Plain c) := inferInstanceAs (Decidable (_ ∨ _))

theorem plain_of_all {P : Char → Prop} [DecidablePred P] {t : Text}
    (h : (t.all fun c => decide (P c)) = true) : ∀ c ∈ t, P c :=
  fun c hc => of_decide_eq_true (List.all_eq_true.mp h c hc)

theorem sanitizeChar_plain (c : Char) : Plain (sanitizeChar c) ∨ sanitizeChar c = '.' := by
  unfold sanitizeChar
  split
  · next h =>
    rw [Bool.or_eq_true, Bool.or_eq_true, decide_eq_true_iff, decide_eq_true_iff] at h
    rcases h with (halnum | hdot) | hdash
    · exact Or.inl (Or.inl halnum)
    · exact Or.inr hdot
    · exact Or.inl (Or.inr (Or.inl hdash))
  · exact Or.inl (Or.inr (Or.inr rfl))

theorem sanitizeChar_dot_iff (c : Char) : sanitizeChar c = '.' ↔ c = '.' := by
  constructor
  · intro h
    unfold sanitizeChar at h
    split at h
    · exact h
    · exact absurd h (by decide)
  · rintro rfl
    rfl

theorem sanitizeChar_of_plain {c : Char} (h : Plain c ∨ c = '.') : sanitizeChar c = c := by
  rcases h with (halnum | rfl | rfl) | rfl
  · simp [sanitizeChar, halnum]
  · rfl
  · rfl
  · rfl

theorem sanitizePrefix_eq (s : Text) :
    sanitizePrefix s =
      if s.all isDot then defaultPrefix else strip '.' (s.map sanitizeChar) := by
  have hall : (s.map sanitizeChar).all isDot = s.all isDot := by
    rw [List.all_map]
    refine congrArg s.all (funext fun c => ?_)
    simp [isDot, sanitizeChar_dot_iff]
  unfold sanitizePrefix
  simp only [hall]
  rfl

theorem all_isDot_iff (s : Text) : s.all isDot = true ↔ ∀ c ∈ s, c = '.' := by
  simp [isDot]

/-- A prefix that has been sanitized: it neither starts nor ends with a dot. -/
structure Sanitized (t : Text) : Prop where
  ne_nil : t ≠ []
  head : t.head? ≠ some '.'
  last : t.getLast? ≠ some '.'
  chars : ∀ c ∈ t, Plain c ∨ c = '.'

theorem sanitizePrefix_sanitized (s : Text) : Sanitized (sanitizePrefix s) := by
  rw [sanitizePrefix_eq]
  split
  · exact ⟨by decide, by decide, by decide, plain_of_all (by decide)⟩
  · next h =>
    rw [all_isDot_iff] at h
    push Not at h
    obtain ⟨c, hc, hne⟩ := h
    have hsome : ∃ d ∈ s.map sanitizeChar, d ≠ '.' :=
      ⟨sanitizeChar c, List.mem_map_of_mem hc, mt (sanitizeChar_dot_iff c).mp hne⟩
    refine ⟨strip_ne_nil hsome, head?_strip_ne _ _, getLast?_strip_ne _ _, fun d hd => ?_⟩
    have hmem : d ∈ s.map sanitizeChar :=
      (List.dropWhile_sublist _).subset ((strip_start _ _).subset hd)
    obtain ⟨e, _, rfl⟩ := List.mem_map.mp hmem
    exact sanitizeChar_plain e

theorem strip_self {t : Text} (hhead : t.head? ≠ some '.') (hlast : t.getLast? ≠ some '.') :
    strip '.' t = t := by
  have hfront : t.dropWhile (· = '.') = t := by
    cases t with
    | nil => rfl
    | cons c t =>
      refine List.dropWhile_cons_of_neg ?_
      simpa using hhead
  rw [strip, hfront, List.rdropWhile_eq_self_iff]
  intro hne hdot
  rw [List.getLast?_eq_some_getLast hne] at hlast
  exact hlast (congrArg some (by simpa using hdot))

theorem Sanitized.unchanged {t : Text} (h : Sanitized t) : sanitizePrefix t = t := by
  have hsome : ¬∀ c ∈ t, c = '.' := by
    intro hall
    obtain ⟨c, rest, rfl⟩ := List.exists_cons_of_ne_nil h.ne_nil
    exact h.head (by simp [hall c List.mem_cons_self])
  have hmap : t.map sanitizeChar = t := by
    conv_rhs => rw [← List.map_id t]
    exact List.map_congr_left fun c hc => sanitizeChar_of_plain (h.chars c hc)
  rw [sanitizePrefix_eq, if_neg (mt (all_isDot_iff t).mp hsome), hmap, strip_self h.head h.last]

/-- Dots in a row with something else on both sides. -/
def InnerDots (s : Text) : Prop :=
  ∃ a b, s = a ++ '.' :: '.' :: b ∧ (∃ c ∈ a, c ≠ '.') ∧ ∃ c ∈ b, c ≠ '.'

theorem double_sanitizePrefix_iff (s : Text) :
    Double '.' (sanitizePrefix s) ↔ InnerDots s := by
  have hsome : ∀ l : Text, (∃ c ∈ l.map sanitizeChar, c ≠ '.') ↔ ∃ c ∈ l, c ≠ '.' := by
    intro l
    simp [sanitizeChar_dot_iff]
  rw [sanitizePrefix_eq]
  split
  · next hall =>
    refine iff_of_false ?_ ?_
    · exact (nil_notMem_splitOn_iff '.' defaultPrefix).mp (by decide) |>.2.2.2
    · rintro ⟨a, b, rfl, ⟨c, hc, hne⟩, _⟩
      exact hne ((all_isDot_iff _).mp hall c (List.mem_append_left _ hc))
  · rw [double_strip_iff]
    constructor
    · rintro ⟨a, b, hmap, ha, hb⟩
      obtain ⟨a', rest, rfl, rfl, hrest⟩ := List.map_eq_append_iff.mp hmap
      obtain ⟨c, rest, rfl, hc, hrest⟩ := List.map_eq_cons_iff.mp hrest
      obtain ⟨d, b', rfl, hd, rfl⟩ := List.map_eq_cons_iff.mp hrest
      obtain rfl := (sanitizeChar_dot_iff c).mp hc
      obtain rfl := (sanitizeChar_dot_iff d).mp hd
      exact ⟨a', b', rfl, (hsome a').mp ha, (hsome b').mp hb⟩
    · rintro ⟨a, b, rfl, ha, hb⟩
      refine ⟨a.map sanitizeChar, b.map sanitizeChar, ?_, (hsome a).mpr ha, (hsome b).mpr hb⟩
      rw [List.map_append, List.map_cons, List.map_cons]
      rfl

/-- Dot-separated non-empty segments of letters, digits, `-` and `_`. -/
def ValidPath (path : Text) : Prop :=
  ∀ segment ∈ path.splitOn '.', segment ≠ [] ∧ ∀ c ∈ segment, Plain c

instance (path : Text) : Decidable (ValidPath path) :=
  decidable_of_iff
    (((path.splitOn '.').all fun s => !s.isEmpty && s.all fun c => decide (Plain c)) = true)
    (by simp [ValidPath])

theorem validPath_append (p q : Text) : ValidPath (p ++ '.' :: q) ↔ ValidPath p ∧ ValidPath q := by
  unfold ValidPath
  rw [List.splitOn_append_cons_self]
  constructor
  · intro h
    exact ⟨fun s hs => h s (List.mem_append_left _ hs),
      fun s hs => h s (List.mem_append_right _ hs)⟩
  · rintro ⟨hp, hq⟩ s hs
    exact (List.mem_append.mp hs).elim (hp s) (hq s)

theorem plain_ne_dot {c : Char} (h : Plain c) : c ≠ '.' := by
  rintro rfl
  exact absurd h (by decide)

theorem validPath_segment {s : Text} (hne : s ≠ []) (h : ∀ c ∈ s, Plain c) : ValidPath s := by
  intro segment hsegment
  rw [List.splitOn_eq_singleton fun hdot => plain_ne_dot (h _ hdot) rfl,
    List.mem_singleton] at hsegment
  rw [hsegment]
  exact ⟨hne, h⟩

theorem decimal_plain {n : ℕ} {c : Char} (h : c ∈ decimal n) : Plain c := by
  have hdigit := Nat.isDigit_of_mem_toDigits (by decide) (by decide) h
  refine Or.inl ?_
  rw [Char.isDigit, Bool.and_eq_true, decide_eq_true_iff, decide_eq_true_iff] at hdigit
  rw [isAlnum, Bool.or_eq_true, Bool.or_eq_true, Bool.and_eq_true, decide_eq_true_iff,
    decide_eq_true_iff]
  exact Or.inl (Or.inl hdigit)

/-- A sanitized prefix is a path unless there are dots in a row in it. -/
theorem Sanitized.validPath_iff {t : Text} (h : Sanitized t) : ValidPath t ↔ ¬Double '.' t := by
  have hpieces := nil_notMem_splitOn_iff '.' t
  constructor
  · intro hvalid
    exact (hpieces.mp fun hnil => (hvalid [] hnil).1 rfl).2.2.2
  · intro hdouble segment hsegment
    refine ⟨fun hnil => ?_, fun c hc => ?_⟩
    · exact hpieces.mpr ⟨h.ne_nil, h.head, h.last, hdouble⟩ (hnil ▸ hsegment)
    · obtain ⟨hmem, hne⟩ := mem_of_mem_splitOn hsegment hc
      exact (h.chars c hmem).resolve_right hne

theorem numbered_valid {tag : Text} (h : ∀ c ∈ tag, Plain c) (n : ℕ) :
    ValidPath (tag ++ decimal n) := by
  have hne : tag ++ decimal n ≠ [] := List.append_ne_nil_of_right_ne_nil tag Nat.toDigits_ne_nil
  refine validPath_segment hne fun c hc => ?_
  rcases List.mem_append.mp hc with hc | hc
  · exact h c hc
  · exact decimal_plain hc

theorem boardPath_valid_iff (t : Text) (board : UInt16) :
    ValidPath (boardPath t board) ↔ ValidPath t := by
  have hsegment : ValidPath ("bo_".toList ++ decimal board.toNat) :=
    numbered_valid (plain_of_all (by decide)) _
  have hpath : boardPath t board = t ++ '.' :: ("bo_".toList ++ decimal board.toNat) := by
    rw [boardPath, List.append_assoc]
    rfl
  rw [hpath, validPath_append]
  exact and_iff_left hsegment

theorem channelPath_valid_iff (t : Text) (board ch : UInt16) {metric : String}
    (hmetric : ValidPath metric.toList) :
    ValidPath (channelPath t board ch metric) ↔ ValidPath t := by
  have hsegment : ValidPath ("ch_".toList ++ decimal ch.toNat) :=
    numbered_valid (plain_of_all (by decide)) _
  have hpath : channelPath t board ch metric =
      boardPath t board ++ '.' :: (("ch_".toList ++ decimal ch.toNat) ++ '.' :: metric.toList) := by
    rw [channelPath, List.append_assoc, List.append_assoc]
    rfl
  rw [hpath, validPath_append, validPath_append, boardPath_valid_iff]
  exact and_iff_left ⟨hsegment, hmetric⟩

/-- Path, space, value, space, time, newline. -/
def ValidLine (epoch : ℤ) (l : Text) : Prop :=
  ∃ path value, l = metricLine path value epoch ∧ ValidPath path ∧ value ≠ [] ∧
    ∀ c ∈ value, c.isWhitespace = false

def pathOf (l : Text) : Text := l.takeWhile (· ≠ ' ')

def PathText (t : Text) : Prop := ∀ c ∈ t, Plain c ∨ c = '.'

theorem PathText.notMem {t : Text} (h : PathText t) {c : Char} (hc : ¬(Plain c ∨ c = '.')) :
    c ∉ t := fun hmem => hc (h c hmem)

theorem PathText.append {t u : Text} (ht : PathText t) (hu : PathText u) : PathText (t ++ u) :=
  fun c hc => (List.mem_append.mp hc).elim (ht c) (hu c)

theorem ValidPath.pathText {t : Text} (h : ValidPath t) : PathText t := by
  intro c hc
  by_cases hdot : c = '.'
  · exact Or.inr hdot
  · obtain ⟨segment, hsegment, hmem⟩ := exists_mem_splitOn hc hdot
    exact Or.inl ((h segment hsegment).2 c hmem)

theorem metricLine_valid_iff {path value : Text} (hpath : PathText path) (hne : value ≠ [])
    (hvisible : ∀ c ∈ value, c.isWhitespace = false) (epoch : ℤ) :
    ValidLine epoch (metricLine path value epoch) ↔ ValidPath path := by
  constructor
  · rintro ⟨path', value', heq, hvalid, _⟩
    obtain ⟨rfl, _⟩ := append_cons_inj (hpath.notMem (by decide))
      (hvalid.pathText.notMem (by decide)) heq
    exact hvalid
  · intro hvalid
    exact ⟨path, value, rfl, hvalid, hne, hvisible⟩

theorem pathOf_metricLine {path : Text} (h : PathText path) (value : Text) (epoch : ℤ) :
    pathOf (metricLine path value epoch) = path := by
  have hspace : ∀ c ∈ path, decide (c ≠ ' ') = true := by
    intro c hc
    refine decide_eq_true fun hc' => ?_
    exact absurd (h c hc) (by rw [hc']; decide)
  rw [pathOf, metricLine, List.takeWhile_append_of_pos hspace]
  simp

theorem epoch_newline (epoch : ℤ) : newline ∉ (toString epoch).toList := by
  have hdigits : ∀ n, newline ∉ decimal n := by
    intro n hmem
    exact absurd (decimal_plain hmem) (by decide)
  cases epoch with
  | ofNat n =>
    have htext : (toString (Int.ofNat n)).toList = decimal n := Nat.toList_repr
    rw [htext]
    exact hdigits n
  | negSucc n =>
    have htext : (toString (Int.negSucc n)).toList = '-' :: decimal (n + 1) := by
      have hrepr : toString (Int.negSucc n) = "-" ++ Nat.repr (n + 1) := rfl
      rw [hrepr, String.toList_append, Nat.toList_repr]
      rfl
    rw [htext, List.mem_cons, not_or]
    exact ⟨by decide, hdigits (n + 1)⟩

theorem metricLine_ends {path value : Text} (hpath : PathText path)
    (hvisible : ∀ c ∈ value, c.isWhitespace = false) (epoch : ℤ) :
    ∃ l, newline ∉ l ∧ metricLine path value epoch = l ++ [newline] := by
  refine ⟨path ++ ' ' :: (value ++ ' ' :: (toString epoch).toList), ?_, by simp [metricLine]⟩
  have hvalue : newline ∉ value := by
    intro hmem
    exact absurd (hvisible _ hmem) (by decide)
  have hspace : newline ≠ ' ' := by decide
  rw [List.mem_append, List.mem_cons, List.mem_append, List.mem_cons]
  rintro (hmem | hmem | hmem | hmem | hmem)
  · exact hpath.notMem (by decide) hmem
  · exact hspace hmem
  · exact hvalue hmem
  · exact hspace hmem
  · exact epoch_newline epoch hmem

inductive MetricKey
  | board (board : UInt16)
  | channel (board ch : UInt16) (metric : String)
  deriving DecidableEq

def pathAt (t : Text) : MetricKey → Text
  | .board board => boardPath t board ++ ".writeRate".toList
  | .channel board ch metric => channelPath t board ch metric

def channelValues (c : ChannelRate) : List (MetricKey × ℚ) :=
  (channelMetrics c).map fun m => (.channel c.board c.ch m.1, m.2)

def batchValues (rates : List BoardRate) : List (MetricKey × ℚ) :=
  rates.flatMap fun b => (.board b.boardRegId, b.writeRate) :: b.channels.flatMap channelValues

def batchLines (f : NumberFormat) (t : Text) (epoch : ℤ) (rates : List BoardRate) : List Text :=
  (batchValues rates).map fun v => metricLine (pathAt t v.1) (f.print v.2) epoch

theorem channels_format (f : NumberFormat) (t : Text) (epoch : ℤ) (oss : Text)
    (channels : List ChannelRate) :
    channels.foldl (fun oss c => oss ++ (channelLines f t epoch c).flatten) oss =
      oss ++ ((channels.flatMap channelValues).map fun v =>
        metricLine (pathAt t v.1) (f.print v.2) epoch).flatten := by
  induction channels generalizing oss with
  | nil => simp
  | cons c channels ih =>
    have hone : (channelValues c).map (fun v => metricLine (pathAt t v.1) (f.print v.2) epoch) =
        channelLines f t epoch c := by
      rw [channelValues, channelLines, List.map_map]
      rfl
    rw [List.foldl_cons, ih, List.flatMap_cons, List.map_append, hone, List.flatten_append,
      List.append_assoc]

theorem formatGraphite_eq (f : NumberFormat) (t : Text) (epoch : ℤ) (rates : List BoardRate) :
    formatGraphite f rates t epoch = (batchLines f t epoch rates).flatten := by
  have hrun : ∀ oss, rates.foldl (formatBoard f t epoch) oss =
      oss ++ (batchLines f t epoch rates).flatten := by
    induction rates with
    | nil => simp [batchLines, batchValues]
    | cons b rates ih =>
      intro oss
      have hsplit : batchLines f t epoch (b :: rates) =
          boardLine f t epoch b :: ((b.channels.flatMap channelValues).map fun v =>
            metricLine (pathAt t v.1) (f.print v.2) epoch) ++ batchLines f t epoch rates := by
        rw [batchLines, batchValues, List.flatMap_cons, List.map_append, List.map_cons]
        rfl
      rw [List.foldl_cons, ih, formatBoard, channels_format, hsplit, List.flatten_append,
        List.flatten_cons, List.append_assoc, List.append_assoc, List.append_assoc]
  exact hrun []

/-- A key of a batch: a metric of a channel has one of the four names. -/
def MetricKey.Named : MetricKey → Prop
  | .board _ => True
  | .channel _ _ metric => ValidPath metric.toList

theorem batchValues_named {v : MetricKey × ℚ} {rates : List BoardRate}
    (hv : v ∈ batchValues rates) : v.1.Named := by
  obtain ⟨b, _, hv⟩ := List.mem_flatMap.mp hv
  rcases List.mem_cons.mp hv with rfl | hv
  · trivial
  · obtain ⟨c, _, hv⟩ := List.mem_flatMap.mp hv
    obtain ⟨m, hm, rfl⟩ := List.mem_map.mp hv
    simp only [channelMetrics, List.mem_cons, List.not_mem_nil, or_false] at hm
    rcases hm with rfl | rfl | rfl | rfl
    · exact (by decide : ValidPath "totalRate".toList)
    · exact (by decide : ValidPath "pileRate".toList)
    · exact (by decide : ValidPath "lostRate".toList)
    · exact (by decide : ValidPath "satuRate".toList)

theorem decimal_pathText (n : ℕ) : PathText (decimal n) := fun _ hc => Or.inl (decimal_plain hc)

theorem boardPath_pathText {t : Text} (h : PathText t) (board : UInt16) :
    PathText (boardPath t board) :=
  (h.append (plain_of_all (by decide))).append (decimal_pathText _)

theorem pathAt_pathText {t : Text} (h : PathText t) {k : MetricKey} (hk : k.Named) :
    PathText (pathAt t k) := by
  cases k with
  | board board =>
    exact (boardPath_pathText h board).append (plain_of_all (by decide))
  | channel board ch metric =>
    have hmetric : PathText ('.' :: metric.toList) := by
      intro c hc
      rcases List.mem_cons.mp hc with rfl | hc
      · exact Or.inr rfl
      · exact ValidPath.pathText hk c hc
    exact (((boardPath_pathText h board).append (plain_of_all (by decide))).append
      (decimal_pathText _)).append hmetric

theorem pathAt_valid_iff (t : Text) {k : MetricKey} (hk : k.Named) :
    ValidPath (pathAt t k) ↔ ValidPath t := by
  cases k with
  | board board =>
    have hpath : pathAt t (.board board) = boardPath t board ++ '.' :: "writeRate".toList := rfl
    rw [hpath, validPath_append, boardPath_valid_iff]
    exact and_iff_left (by decide)
  | channel board ch metric => exact channelPath_valid_iff t board ch hk

theorem linesOf_formatGraphite (f : NumberFormat) {t : Text} (h : PathText t) (epoch : ℤ)
    (rates : List BoardRate) :
    linesOf newline (formatGraphite f rates t epoch) = batchLines f t epoch rates := by
  rw [formatGraphite_eq]
  refine linesOf_flatten fun line hline => ?_
  obtain ⟨v, hv, rfl⟩ := List.mem_map.mp hline
  exact metricLine_ends (pathAt_pathText h (batchValues_named hv)) (f.visible _) epoch

theorem batchLines_valid_iff (f : NumberFormat) {t : Text} (h : PathText t) (epoch : ℤ)
    (rates : List BoardRate) :
    (∀ l ∈ batchLines f t epoch rates, ValidLine epoch l) ↔ rates = [] ∨ ValidPath t := by
  have hone : ∀ v ∈ batchValues rates,
      ValidLine epoch (metricLine (pathAt t v.1) (f.print v.2) epoch) ↔ ValidPath t := by
    intro v hv
    have hnamed := batchValues_named hv
    rw [metricLine_valid_iff (pathAt_pathText h hnamed) (f.print_ne_nil _) (f.visible _),
      pathAt_valid_iff t hnamed]
  cases rates with
  | nil => exact iff_of_true (fun l hl => absurd hl List.not_mem_nil) (Or.inl rfl)
  | cons b rates =>
    constructor
    · intro hall
      have hfirst : (MetricKey.board b.boardRegId, b.writeRate) ∈ batchValues (b :: rates) := by
        rw [batchValues, List.flatMap_cons]
        exact List.mem_append_left _ List.mem_cons_self
      exact Or.inr ((hone _ hfirst).mp (hall _ (List.mem_map_of_mem hfirst)))
    · rintro (hnil | hvalid) l hl
      · cases hnil
      · obtain ⟨v, hv, rfl⟩ := List.mem_map.mp hl
        exact (hone v hv).mpr hvalid

theorem decimal_injective {m n : ℕ} (h : decimal m = decimal n) : m = n := by
  have hvalue := congrArg (Nat.ofDigitChars 10 · 0) h
  simpa only [decimal, Nat.ofDigitChars_ten_toDigits] using hvalue

theorem decimal_notMem_dot (n : ℕ) : '.' ∉ decimal n := fun hmem =>
  plain_ne_dot (decimal_plain hmem) rfl

theorem uint16_decimal {x y : UInt16} {u v : Text}
    (h : decimal x.toNat ++ '.' :: u = decimal y.toNat ++ '.' :: v) : x = y ∧ u = v := by
  obtain ⟨hx, huv⟩ := append_cons_inj (decimal_notMem_dot _) (decimal_notMem_dot _) h
  exact ⟨UInt16.toNat_inj.mp (decimal_injective hx), huv⟩

theorem pathAt_injective (t : Text) {k k' : MetricKey} (h : pathAt t k = pathAt t k') : k = k' := by
  have hboard : ∀ board, pathAt t (.board board) =
      t ++ (".bo_".toList ++ (decimal board.toNat ++ '.' :: "writeRate".toList)) := by
    intro board
    simp [pathAt, boardPath]
  have hchannel : ∀ board ch metric, pathAt t (.channel board ch metric) =
      t ++ (".bo_".toList ++ (decimal board.toNat ++ '.' ::
        ("ch_".toList ++ (decimal ch.toNat ++ '.' :: metric.toList)))) := by
    intro board ch metric
    simp [pathAt, channelPath, boardPath]
  cases k with
  | board board =>
    cases k' with
    | board board' =>
      rw [hboard, hboard, List.append_right_inj, List.append_right_inj] at h
      rw [(uint16_decimal h).1]
    | channel board' ch' metric' =>
      rw [hboard, hchannel, List.append_right_inj, List.append_right_inj] at h
      exact absurd (uint16_decimal h).2 (by simp)
  | channel board ch metric =>
    cases k' with
    | board board' =>
      rw [hboard, hchannel, List.append_right_inj, List.append_right_inj] at h
      exact absurd (uint16_decimal h).2 (by simp)
    | channel board' ch' metric' =>
      rw [hchannel, hchannel, List.append_right_inj, List.append_right_inj] at h
      obtain ⟨rfl, hrest⟩ := uint16_decimal h
      rw [List.append_right_inj] at hrest
      obtain ⟨rfl, hmetric⟩ := uint16_decimal hrest
      rw [String.toList_inj.mp hmetric]

/-- No two boards have one id, and no two channels of the batch one board and number. -/
structure Distinct (rates : List BoardRate) : Prop where
  boards : (rates.map BoardRate.boardRegId).Nodup
  channels : ((rates.flatMap BoardRate.channels).map fun c => (c.board, c.ch)).Nodup

def channelKeys (c : ChannelRate) : List MetricKey := (channelValues c).map Prod.fst

theorem mem_channelKeys {c : ChannelRate} {k : MetricKey} (h : k ∈ channelKeys c) :
    ∃ metric, k = .channel c.board c.ch metric := by
  obtain ⟨v, hv, rfl⟩ := List.mem_map.mp h
  obtain ⟨m, _, rfl⟩ := List.mem_map.mp hv
  exact ⟨m.1, rfl⟩

theorem channelKeys_nodup (c : ChannelRate) : (channelKeys c).Nodup := by
  have hkeys : channelKeys c = ["totalRate", "pileRate", "lostRate", "satuRate"].map
      (MetricKey.channel c.board c.ch) := rfl
  rw [hkeys]
  refine List.Nodup.map (fun m m' h => ?_) (by decide)
  cases h
  rfl

theorem channels_nodup {channels : List ChannelRate}
    (h : (channels.map fun c => (c.board, c.ch)).Nodup) : (channels.flatMap channelKeys).Nodup := by
  refine List.nodup_flatMap.mpr ⟨fun c _ => channelKeys_nodup c, ?_⟩
  refine (List.pairwise_map.mp h).imp fun {c d} hne k hc hd => ?_
  obtain ⟨m, rfl⟩ := mem_channelKeys hc
  obtain ⟨m', heq⟩ := mem_channelKeys hd
  obtain ⟨hboard, hch, _⟩ := MetricKey.channel.inj heq
  exact hne (Prod.ext hboard hch)

theorem batchKeys_nodup {rates : List BoardRate} (h : Distinct rates) :
    ((batchValues rates).map Prod.fst).Nodup := by
  have hperm := List.flatMap_append_perm rates (fun b => [MetricKey.board b.boardRegId])
    fun b => b.channels.flatMap channelKeys
  have hkeys : (batchValues rates).map Prod.fst = rates.flatMap fun b =>
      [MetricKey.board b.boardRegId] ++ b.channels.flatMap channelKeys := by
    rw [batchValues, List.map_flatMap]
    refine List.flatMap_congr fun b _ => ?_
    rw [List.map_cons, List.map_flatMap]
    rfl
  have hboards : (rates.flatMap fun b => [MetricKey.board b.boardRegId]) =
      (rates.map BoardRate.boardRegId).map MetricKey.board := by
    rw [List.map_map, List.map_eq_flatMap]
    rfl
  rw [hkeys, ← hperm.nodup_iff, hboards, ← List.flatMap_assoc]
  refine List.nodup_append.mpr ⟨?_, channels_nodup h.channels, ?_⟩
  · exact h.boards.map fun x y hxy => by cases hxy; rfl
  · intro k hk k' hk' heq
    obtain ⟨board, _, rfl⟩ := List.mem_map.mp hk
    obtain ⟨c, _, hc⟩ := List.mem_flatMap.mp hk'
    obtain ⟨m, rfl⟩ := mem_channelKeys hc
    cases heq

theorem batchPaths_nodup (f : NumberFormat) {t : Text} (ht : PathText t) (epoch : ℤ)
    {rates : List BoardRate} (h : Distinct rates) :
    ((batchLines f t epoch rates).map pathOf).Nodup := by
  have hpaths : (batchLines f t epoch rates).map pathOf =
      ((batchValues rates).map Prod.fst).map (pathAt t) := by
    rw [batchLines, List.map_map, List.map_map]
    refine List.map_congr_left fun v hv => ?_
    exact pathOf_metricLine (pathAt_pathText ht (batchValues_named hv)) _ epoch
  rw [hpaths]
  exact (batchKeys_nodup h).map fun k k' hk => pathAt_injective t hk

/-- Whatever the collector is told, it uses the last prefix that was given, sanitized. -/
theorem setGraphite_prefix (host : String) (port : ℤ) (first : Text) (calls : List Retarget) :
    (calls.foldl setGraphite (construct host port first)).metricPrefix =
      sanitizePrefix (givenPrefix first calls) := by
  have hrun : ∀ (s : GraphiteSettings) (given : Text), s.metricPrefix = sanitizePrefix given →
      (calls.foldl setGraphite s).metricPrefix = sanitizePrefix (givenPrefix given calls) := by
    induction calls with
    | nil => exact fun s given hs => hs
    | cons c calls ih =>
      intro s given hs
      by_cases hempty : c.metricPrefix = []
      · have hskip : givenPrefix given (c :: calls) = givenPrefix given calls := by
          simp [givenPrefix, hempty]
        rw [List.foldl_cons, hskip]
        exact ih _ _ (by rw [setGraphite, if_pos hempty, hs])
      · have htake : givenPrefix given (c :: calls) = givenPrefix c.metricPrefix calls := by
          rw [givenPrefix, List.map_cons, List.filter_cons_of_pos (by simpa using hempty),
            List.getLastD_cons]
          rfl
        rw [List.foldl_cons, htake]
        exact ih _ _ (by rw [setGraphite, if_neg hempty])
  exact hrun _ first rfl

/-- The lines of a batch are valid exactly if no dots stand in a row inside of the prefix that
was given last; sanitizing twice does no more than once, and no path occurs twice. -/
theorem metric_lines_iff (f : NumberFormat) (host : String) (port : ℤ) (first : Text)
    (calls : List Retarget) (rates : List BoardRate) (epoch : ℤ) :
    let s := calls.foldl setGraphite (construct host port first)
    let lines := linesOf newline (formatGraphite f rates s.metricPrefix epoch)
    ((∀ l ∈ lines, ValidLine epoch l) ∧
      (∀ t, sanitizePrefix (sanitizePrefix t) = sanitizePrefix t) ∧
      (Distinct rates → (lines.map pathOf).Nodup)) ↔
    rates = [] ∨ ¬InnerDots (givenPrefix first calls) := by
  intro s lines
  have hs : s.metricPrefix = sanitizePrefix (givenPrefix first calls) :=
    setGraphite_prefix host port first calls
  have hsanitized : Sanitized s.metricPrefix := hs ▸ sanitizePrefix_sanitized _
  have hlines : lines = batchLines f s.metricPrefix epoch rates :=
    linesOf_formatGraphite f hsanitized.chars epoch rates
  have hvalid : (∀ l ∈ lines, ValidLine epoch l) ↔
      rates = [] ∨ ¬InnerDots (givenPrefix first calls) := by
    rw [hlines, batchLines_valid_iff f hsanitized.chars, hsanitized.validPath_iff, hs,
      double_sanitizePrefix_iff]
  rw [hvalid]
  refine and_iff_left ⟨fun t => (sanitizePrefix_sanitized t).unchanged, fun hdistinct => ?_⟩
  rw [hlines]
  exact batchPaths_nodup f hsanitized.chars epoch hdistinct

/-- A rate that is a whole number below a million is printed as such. -/
def wholeNumbers : NumberFormat where
  print q := decimal q.num.toNat
  print_ne_nil q := Nat.toDigits_ne_nil
  visible q c hc := by
    have hdigit := Nat.isDigit_of_mem_toDigits (by decide) (by decide) hc
    by_contra hspace
    rw [Bool.not_eq_false] at hspace
    simp only [Char.isWhitespace, Bool.or_eq_true, decide_eq_true_iff] at hspace
    rcases hspace with ((rfl | rfl) | rfl) | rfl <;> exact absurd hdigit (by decide)

/-- Two dots in the middle of a prefix. -/
theorem metric_lines_doubled :
    let s := construct "carbon" 2003 "ancillary..12c12c".toList
    let rates : List BoardRate :=
      [{ name := "V1730", boardRegId := 3, writeRate := 0, boardFail := 0, channels := [] }]
    ¬∀ l ∈ linesOf newline (formatGraphite wholeNumbers rates s.metricPrefix 1700000000),
      ValidLine 1700000000 l := by
  intro s rates
  have hchars : PathText s.metricPrefix :=
    (sanitizePrefix_sanitized "ancillary..12c12c".toList).chars
  rw [linesOf_formatGraphite _ hchars, batchLines_valid_iff _ hchars]
  decide

end MetricLines
end CaenDaq
