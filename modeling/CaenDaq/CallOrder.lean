import Mathlib.Data.List.Basic

/-!
# Orders in a sequence of calls

Which calls of a sequence stand before which others: none of a kind behind another kind,
and every one of a kind with a match before it. Both are put together from the pieces
that the sequence is made of.
-/

namespace CaenDaq
namespace CallOrder

variable {α : Type}

/-- No call of the kind `P` stands behind one of the kind `Q`. -/
def Precedes (P Q : α → Prop) (l : List α) : Prop := l.Pairwise fun a b => Q a → ¬P b

theorem Precedes.append {P Q : α → Prop} {l l' : List α} (h : ∀ a ∈ l, ¬Q a)
    (h' : ∀ a ∈ l', ¬P a) : Precedes P Q (l ++ l') := by
  refine List.pairwise_append.mpr ⟨?_, ?_, ?_⟩
  · exact List.pairwise_of_forall_mem_list fun a ha b _ hq => absurd hq (h a ha)
  · exact List.pairwise_of_forall_mem_list fun a _ b hb _ => h' b hb
  · exact fun a ha b _ hq => absurd hq (h a ha)

/-- Every call of a sequence meets a condition on what stands before it. -/
def Throughout (P : List α → α → Prop) (l : List α) : Prop :=
  ∀ xs c ys, l = xs ++ c :: ys → P xs c

theorem Throughout.of_forall {P : List α → α → Prop} {l : List α} (h : ∀ c ∈ l, ∀ xs, P xs c) :
    Throughout P l := by
  intro xs c ys hl
  exact h c (hl ▸ List.mem_append_right _ List.mem_cons_self) xs

theorem Throughout.append {P : List α → α → Prop} {l l' : List α} (h : Throughout P l)
    (h' : Throughout (fun xs c => P (l ++ xs) c) l') : Throughout P (l ++ l') := by
  intro xs c ys hl
  rcases List.append_eq_append_iff.mp hl with ⟨as, hxs, hl'⟩ | ⟨bs, hl₁, hl₂⟩
  · rw [hxs]
    exact h' as c ys hl'
  · cases bs with
    | nil =>
      rw [List.append_nil] at hl₁
      have hfirst : P (l ++ []) c := h' [] c ys hl₂.symm
      rwa [List.append_nil, hl₁] at hfirst
    | cons x bs =>
      obtain ⟨rfl, _⟩ := List.cons.inj hl₂
      exact h xs c bs hl₁

theorem Throughout.cons {P : List α → α → Prop} {c : α} {l : List α} (hc : P [] c)
    (h : ∀ b ∈ l, ∀ xs, P xs b) : Throughout P (c :: l) := by
  intro xs b ys hl
  cases xs with
  | nil =>
    obtain ⟨rfl, _⟩ := List.cons.inj hl
    exact hc
  | cons x xs =>
    obtain ⟨rfl, rfl⟩ := List.cons.inj hl
    exact h b (List.mem_append_right _ List.mem_cons_self) _

/-- Every call of the kind `Q` has a call before it that `R` relates to it. -/
def Preceded (Q : α → Prop) (R : α → α → Prop) (l : List α) : Prop :=
  ∀ xs c ys, l = xs ++ c :: ys → Q c → ∃ b ∈ xs, R b c

variable {Q : α → Prop} {R : α → α → Prop}

theorem Preceded.of_none {l : List α} (h : ∀ a ∈ l, ¬Q a) : Preceded Q R l := by
  intro xs c ys hl hc
  exact absurd hc (h c (hl ▸ List.mem_append_right _ List.mem_cons_self))

theorem Preceded.cons {b : α} {l : List α} (hb : ¬Q b) (h : ∀ c ∈ l, Q c → R b c) :
    Preceded Q R (b :: l) := by
  intro xs c ys hl hc
  cases xs with
  | nil =>
    obtain ⟨rfl, _⟩ := List.cons.inj hl
    exact absurd hc hb
  | cons x xs =>
    obtain ⟨rfl, rfl⟩ := List.cons.inj hl
    exact ⟨b, List.mem_cons_self, h c (List.mem_append_right _ List.mem_cons_self) hc⟩

theorem Preceded.append {l l' : List α} (h : Preceded Q R l)
    (h' : ∀ xs c ys, l' = xs ++ c :: ys → Q c → ∃ b ∈ l ++ xs, R b c) :
    Preceded Q R (l ++ l') := by
  exact Throughout.append h h'

theorem Preceded.append_of {l l' : List α} (h : Preceded Q R l) (h' : Preceded Q R l') :
    Preceded Q R (l ++ l') := by
  refine h.append fun xs c ys hl hc => ?_
  obtain ⟨b, hb, hr⟩ := h' xs c ys hl hc
  exact ⟨b, List.mem_append_right _ hb, hr⟩

theorem Preceded.flatMap {ι : Type} {f : ι → List α} {is : List ι}
    (h : ∀ i ∈ is, Preceded Q R (f i)) : Preceded Q R (is.flatMap f) := by
  induction is with
  | nil => exact Preceded.of_none fun a ha => absurd ha List.not_mem_nil
  | cons i is ih =>
    rw [List.flatMap_cons]
    exact (h i List.mem_cons_self).append_of (ih fun j hj => h j (List.mem_cons_of_mem _ hj))

/-- A call of the first part and one of the second part that has its match there: the
match stands between the two. -/
theorem Preceded.between {l l' : List α} (h : Preceded Q R l') (hl : ∀ a ∈ l, ¬Q a)
    {P : α → Prop} (hl' : ∀ a ∈ l', ¬P a) {xs ys zs : List α} {a c : α}
    (heq : l ++ l' = xs ++ a :: (ys ++ c :: zs)) (ha : P a) (hc : Q c) : ∃ b ∈ ys, R b c := by
  rcases List.append_eq_append_iff.mp heq with ⟨as, hxs, hsecond⟩ | ⟨bs, hfirst, hrest⟩
  · exact absurd ha (hl' a (hsecond ▸ List.mem_append_right _ List.mem_cons_self))
  · cases bs with
    | nil =>
      rw [List.nil_append] at hrest
      exact absurd ha (hl' a (hrest ▸ List.mem_cons_self))
    | cons x bs =>
      rw [List.cons_append] at hrest
      obtain ⟨rfl, htail⟩ := List.cons.inj hrest
      rcases List.append_eq_append_iff.mp htail with ⟨as, hbs, hc'⟩ | ⟨bs', hys, hsecond⟩
      · cases as with
        | nil =>
          obtain ⟨b, hb, _⟩ := h [] c zs hc'.symm hc
          exact absurd hb List.not_mem_nil
        | cons y as =>
          obtain ⟨rfl, _⟩ := List.cons.inj hc'
          refine absurd hc (hl c ?_)
          rw [hfirst, hbs]
          exact List.mem_append_right _ (List.mem_cons_of_mem _
            (List.mem_append_right _ List.mem_cons_self))
      · obtain ⟨b, hb, hr⟩ := h bs' c zs hsecond hc
        exact ⟨b, hys ▸ List.mem_append_right _ hb, hr⟩

theorem suffix_of_notMem {l l' xs ys : List α} {c : α} (heq : l ++ l' = xs ++ c :: ys)
    (hc : c ∉ l') : l' <:+ ys := by
  rcases List.append_eq_append_iff.mp heq with ⟨as, _, hsecond⟩ | ⟨bs, _, hrest⟩
  · exact absurd (hsecond ▸ List.mem_append_right _ List.mem_cons_self) hc
  · cases bs with
    | nil =>
      rw [List.nil_append] at hrest
      exact absurd (hrest ▸ List.mem_cons_self) hc
    | cons x bs =>
      rw [List.cons_append] at hrest
      exact ⟨bs, (List.cons.inj hrest).2.symm⟩

end CallOrder
end CaenDaq
