import Mathlib.Data.List.DropRight
import Mathlib.Data.List.Infix

/-!
# Separated texts

Where the pieces between separators are empty, what is left when the separators at both ends
are taken away, and how a text falls into lines.
-/

namespace CaenDaq
namespace Separated

variable {α : Type}

/-- Two separators in a row. -/
def Double (x : α) (l : List α) : Prop := ∃ a b, l = a ++ x :: x :: b

theorem double_cons {x y : α} {l : List α} :
    Double x (y :: l) ↔ (y = x ∧ l.head? = some x) ∨ Double x l := by
  constructor
  · rintro ⟨a, b, h⟩
    cases a with
    | nil =>
      obtain ⟨rfl, rfl⟩ := List.cons.inj h
      exact Or.inl ⟨rfl, rfl⟩
    | cons z a =>
      obtain ⟨rfl, rfl⟩ := List.cons.inj h
      exact Or.inr ⟨a, b, rfl⟩
  · rintro (⟨rfl, hhead⟩ | ⟨a, b, rfl⟩)
    · obtain ⟨b, rfl⟩ := List.head?_eq_some_iff.mp hhead
      exact ⟨[], b, rfl⟩
    · exact ⟨y :: a, b, rfl⟩

variable [DecidableEq α]

theorem splitOn_head_nil_iff (x : α) (l : List α) :
    (l.splitOn x).head? = some [] ↔ l = [] ∨ l.head? = some x := by
  cases l with
  | nil => simp
  | cons y l =>
    rw [List.splitOn_cons_eq_if_modifyHead]
    by_cases hy : y = x
    · simp [hy]
    · obtain ⟨first, rest, hsplit⟩ := List.exists_cons_of_ne_nil (List.splitOn_ne_nil x l)
      simp [hy, hsplit]

theorem nil_mem_tail_splitOn_iff (x : α) (l : List α) :
    [] ∈ (l.splitOn x).tail ↔ l.getLast? = some x ∨ Double x l := by
  induction l with
  | nil => simp [Double]
  | cons y l ih =>
    rw [List.splitOn_cons_eq_if_modifyHead, double_cons]
    obtain ⟨first, rest, hsplit⟩ := List.exists_cons_of_ne_nil (List.splitOn_ne_nil x l)
    have hhead := splitOn_head_nil_iff x l
    rw [hsplit] at ih hhead
    rw [List.tail_cons] at ih
    by_cases hy : y = x
    · subst hy
      have hpieces : [] ∈ first :: rest ↔ (l = [] ∨ l.head? = some y) ∨ [] ∈ rest := by
        rw [← hhead, List.mem_cons, List.head?_cons, Option.some_inj, eq_comm]
      rw [beq_self_eq_true, if_pos rfl, List.tail_cons, hsplit, hpieces, ih]
      cases l with
      | nil => simp
      | cons z l =>
        rw [List.getLast?_cons_cons]
        simp [or_left_comm]
    · rw [if_neg (by simpa using hy), hsplit, List.modifyHead_cons, List.tail_cons, ih]
      cases l with
      | nil => simp [hy, Double]
      | cons z l =>
        rw [List.getLast?_cons_cons]
        simp [hy]

theorem nil_notMem_splitOn_iff (x : α) (l : List α) :
    [] ∉ l.splitOn x ↔
      l ≠ [] ∧ l.head? ≠ some x ∧ l.getLast? ≠ some x ∧ ¬Double x l := by
  have htail := nil_mem_tail_splitOn_iff x l
  have hhead := splitOn_head_nil_iff x l
  obtain ⟨first, rest, hsplit⟩ := List.exists_cons_of_ne_nil (List.splitOn_ne_nil x l)
  rw [hsplit] at htail hhead ⊢
  rw [List.head?_cons, Option.some_inj] at hhead
  rw [List.tail_cons] at htail
  rw [List.mem_cons, eq_comm, hhead, htail]
  tauto

theorem mem_of_mem_splitOn {x : α} {l piece : List α} (h : piece ∈ l.splitOn x) {c : α}
    (hc : c ∈ piece) : c ∈ l ∧ c ≠ x := by
  induction l generalizing piece with
  | nil =>
    rw [List.splitOn_nil, List.mem_singleton] at h
    exact absurd (h ▸ hc) List.not_mem_nil
  | cons y l ih =>
    rw [List.splitOn_cons_eq_if_modifyHead] at h
    split at h
    · rcases List.mem_cons.mp h with rfl | h
      · exact absurd hc List.not_mem_nil
      · exact (ih h hc).imp_left (List.mem_cons_of_mem y)
    · next hy =>
      obtain ⟨first, rest, hsplit⟩ := List.exists_cons_of_ne_nil (List.splitOn_ne_nil x l)
      rw [hsplit, List.modifyHead_cons] at h
      rw [hsplit] at ih
      rcases List.mem_cons.mp h with rfl | h
      · rcases List.mem_cons.mp hc with rfl | hc
        · exact ⟨List.mem_cons_self, by simpa using hy⟩
        · exact (ih List.mem_cons_self hc).imp_left (List.mem_cons_of_mem y)
      · exact (ih (List.mem_cons_of_mem _ h) hc).imp_left (List.mem_cons_of_mem y)

theorem exists_mem_splitOn {x c : α} {l : List α} (hc : c ∈ l) (hne : c ≠ x) :
    ∃ piece ∈ l.splitOn x, c ∈ piece := by
  obtain ⟨before, after, rfl⟩ := List.append_of_mem hc
  induction before with
  | nil =>
    obtain ⟨first, rest, hsplit⟩ := List.exists_cons_of_ne_nil (List.splitOn_ne_nil x after)
    refine ⟨c :: first, ?_, List.mem_cons_self⟩
    simp [List.splitOn_cons_eq_if_modifyHead, hne, hsplit]
  | cons y before ih =>
    obtain ⟨piece, hpiece, hmem⟩ := ih (by simp)
    rw [List.cons_append, List.splitOn_cons_eq_if_modifyHead]
    split
    · exact ⟨piece, List.mem_cons_of_mem _ hpiece, hmem⟩
    · obtain ⟨first, rest, hsplit⟩ :=
        List.exists_cons_of_ne_nil (List.splitOn_ne_nil x (before ++ c :: after))
      rw [hsplit] at hpiece ⊢
      rw [List.modifyHead_cons]
      rcases List.mem_cons.mp hpiece with rfl | hpiece
      · exact ⟨y :: piece, List.mem_cons_self, List.mem_cons_of_mem _ hmem⟩
      · exact ⟨piece, List.mem_cons_of_mem _ hpiece, hmem⟩

def strip (x : α) (l : List α) : List α := (l.dropWhile (· = x)).rdropWhile (· = x)

theorem head?_dropWhile_ne (x : α) (l : List α) : (l.dropWhile (· = x)).head? ≠ some x := by
  intro hhead
  have hnot := List.head?_dropWhile_not (· = x) l
  rw [hhead] at hnot
  simp at hnot

theorem getLast?_rdropWhile_ne (x : α) (l : List α) : (l.rdropWhile (· = x)).getLast? ≠ some x := by
  rw [List.rdropWhile, List.getLast?_reverse]
  exact head?_dropWhile_ne x l.reverse

theorem getLast?_strip_ne (x : α) (l : List α) : (strip x l).getLast? ≠ some x :=
  getLast?_rdropWhile_ne x _

theorem strip_ne_nil {x : α} {l : List α} (h : ∃ c ∈ l, c ≠ x) : strip x l ≠ [] := by
  obtain ⟨c, hc, hne⟩ := h
  intro hnil
  rw [strip, List.rdropWhile_eq_nil_iff] at hnil
  -- a part of separators only would have been dropped from the front
  cases hrest : l.dropWhile (· = x) with
  | nil => exact hne (by simpa using List.dropWhile_eq_nil_iff.mp hrest c hc)
  | cons d rest =>
    have hd : d = x := by simpa using hnil d (hrest ▸ List.mem_cons_self)
    have hhead := head?_dropWhile_ne x l
    rw [hrest, List.head?_cons, hd] at hhead
    exact hhead rfl

theorem strip_start (x : α) (l : List α) : strip x l <+: l.dropWhile (· = x) :=
  List.rdropWhile_prefix _ _

theorem head?_strip_ne (x : α) (l : List α) : (strip x l).head? ≠ some x := by
  intro hhead
  obtain ⟨rest, hrest⟩ := List.head?_eq_some_iff.mp hhead
  obtain ⟨after, hafter⟩ := strip_start x l
  apply head?_dropWhile_ne x l
  rw [← hafter, hrest]
  rfl

theorem dropWhile_append_of_ne {x : α} {a : List α} (h : ∃ c ∈ a, c ≠ x) (b : List α) :
    (a ++ b).dropWhile (· = x) = a.dropWhile (· = x) ++ b := by
  obtain ⟨c, hc, hne⟩ := h
  have hsome : a.dropWhile (· = x) ≠ [] := by
    intro hnil
    exact hne (by simpa using List.dropWhile_eq_nil_iff.mp hnil c hc)
  rw [List.dropWhile_append, if_neg (by simpa using hsome)]

theorem double_strip_iff (x : α) (l : List α) :
    Double x (strip x l) ↔
      ∃ a b, l = a ++ x :: x :: b ∧ (∃ c ∈ a, c ≠ x) ∧ ∃ c ∈ b, c ≠ x := by
  constructor
  · rintro ⟨a, b, h⟩
    obtain ⟨after, hafter⟩ := strip_start x l
    have hl : l = (l.takeWhile (· = x) ++ a) ++ x :: x :: (b ++ after) := by
      have hcut : l.takeWhile (· = x) ++ l.dropWhile (· = x) = l := List.takeWhile_append_dropWhile
      rw [← hafter, h] at hcut
      conv_lhs => rw [← hcut]
      simp only [List.append_assoc, List.cons_append]
    refine ⟨_, _, hl, ?_, ?_⟩
    · cases a with
      | nil =>
        have hhead := head?_strip_ne x l
        rw [h] at hhead
        exact absurd rfl hhead
      | cons c a =>
        refine ⟨c, by simp, fun hc => ?_⟩
        have hhead := head?_strip_ne x l
        rw [h, hc] at hhead
        exact hhead rfl
    · have hlast := getLast?_strip_ne x l
      rw [h] at hlast
      rcases List.eq_nil_or_concat b with rfl | ⟨front, c, rfl⟩
      · exact absurd (by simp) hlast
      · refine ⟨c, by simp, fun hc => hlast ?_⟩
        rw [hc, List.concat_eq_append, ← List.cons_append, ← List.cons_append, ← List.append_assoc,
          List.getLast?_concat]
  · rintro ⟨a, b, rfl, ha, hb⟩
    refine ⟨a.dropWhile (· = x), b.rdropWhile (· = x), ?_⟩
    have hb' : ∃ c ∈ b.reverse, c ≠ x := by simpa using hb
    rw [strip, dropWhile_append_of_ne ha, List.rdropWhile, List.rdropWhile]
    have hback : (a.dropWhile (· = x) ++ x :: x :: b).reverse =
        b.reverse ++ ((a.dropWhile (· = x)) ++ [x, x]).reverse := by simp
    rw [hback, dropWhile_append_of_ne hb', List.reverse_append, List.reverse_reverse]
    simp

omit [DecidableEq α] in
theorem append_cons_inj {x : α} {a b u v : List α} (ha : x ∉ a) (hb : x ∉ b)
    (h : a ++ x :: u = b ++ x :: v) : a = b ∧ u = v := by
  induction a generalizing b with
  | nil =>
    cases b with
    | nil => exact ⟨rfl, (List.cons.inj h).2⟩
    | cons y b => exact absurd ((List.cons.inj h).1 ▸ List.mem_cons_self) hb
  | cons z a ih =>
    cases b with
    | nil => exact absurd ((List.cons.inj h).1 ▸ List.mem_cons_self) ha
    | cons y b =>
      obtain ⟨rfl, hrest⟩ := List.cons.inj h
      obtain ⟨rfl, huv⟩ := ih (fun hx => ha (List.mem_cons_of_mem _ hx))
        (fun hx => hb (List.mem_cons_of_mem _ hx)) hrest
      exact ⟨rfl, huv⟩

/-- The pieces of a text that end with the separator, and what stands behind the last one. -/
def linesOf (x : α) : List α → List (List α)
  | [] => []
  | y :: l =>
    if y = x then [y] :: linesOf x l
    else
      match linesOf x l with
      | [] => [[y]]
      | line :: rest => (y :: line) :: rest

theorem linesOf_line {x : α} {l : List α} (h : x ∉ l) (rest : List α) :
    linesOf x (l ++ x :: rest) = (l ++ [x]) :: linesOf x rest := by
  induction l with
  | nil => simp [linesOf]
  | cons y l ih =>
    rw [List.mem_cons, not_or] at h
    rw [List.cons_append, linesOf, if_neg (Ne.symm h.1), ih h.2]
    rfl

theorem linesOf_flatten {x : α} {lines : List (List α)}
    (h : ∀ line ∈ lines, ∃ l, x ∉ l ∧ line = l ++ [x]) : linesOf x lines.flatten = lines := by
  induction lines with
  | nil => rfl
  | cons line lines ih =>
    obtain ⟨l, hl, rfl⟩ := h line List.mem_cons_self
    rw [List.flatten_cons, List.append_assoc, List.singleton_append, linesOf_line hl,
      ih fun line hline => h line (List.mem_cons_of_mem _ hline)]

end Separated
end CaenDaq
