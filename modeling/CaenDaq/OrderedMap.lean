import Mathlib.Data.List.Basic
import Mathlib.Order.Lattice

/-!
# Maps with keys in order

A map as the list of its entries in key order, each key once. Setting a key that is there
replaces its value.
-/

namespace CaenDaq

structure OrderedMap (κ β : Type) [LinearOrder κ] where
  entries : List (κ × β)
  sorted : entries.Pairwise fun d e => d.1 < e.1

namespace OrderedMap

variable {κ β : Type} [LinearOrder κ]

def setEntry (k : κ) (v : β) : List (κ × β) → List (κ × β)
  | [] => [(k, v)]
  | e :: rest =>
    if k < e.1 then (k, v) :: e :: rest
    else if k = e.1 then (k, v) :: rest
    else e :: setEntry k v rest

theorem mem_setEntry {k : κ} {v : β} {l : List (κ × β)} {e : κ × β} (h : e ∈ setEntry k v l) :
    e = (k, v) ∨ e ∈ l := by
  induction l with
  | nil => exact Or.inl (List.mem_singleton.mp h)
  | cons d rest ih =>
    unfold setEntry at h
    split at h
    · exact List.mem_cons.mp h
    · split at h
      · exact (List.mem_cons.mp h).imp id (List.mem_cons_of_mem d)
      · rcases List.mem_cons.mp h with rfl | h
        · exact Or.inr List.mem_cons_self
        · exact (ih h).imp id (List.mem_cons_of_mem d)

theorem setEntry_sorted {l : List (κ × β)} (h : l.Pairwise fun d e => d.1 < e.1) (k : κ)
    (v : β) : (setEntry k v l).Pairwise fun d e => d.1 < e.1 := by
  induction l with
  | nil => exact List.pairwise_singleton _ _
  | cons d rest ih =>
    obtain ⟨hd, hrest⟩ := List.pairwise_cons.mp h
    unfold setEntry
    split
    · next hbefore =>
      refine List.pairwise_cons.mpr ⟨fun e he => ?_, h⟩
      rcases List.mem_cons.mp he with rfl | he
      · exact hbefore
      · exact lt_trans hbefore (hd e he)
    · next hnot =>
      split
      · next hsame =>
        refine List.pairwise_cons.mpr ⟨fun e he => ?_, hrest⟩
        rw [hsame]
        exact hd e he
      · next hne =>
        refine List.pairwise_cons.mpr ⟨fun e he => ?_, ih hrest⟩
        rcases mem_setEntry he with rfl | he
        · exact lt_of_le_of_ne (not_lt.mp hnot) (Ne.symm hne)
        · exact hd e he

def empty : OrderedMap κ β := ⟨[], List.Pairwise.nil⟩

def set (m : OrderedMap κ β) (k : κ) (v : β) : OrderedMap κ β :=
  ⟨setEntry k v m.entries, setEntry_sorted m.sorted k v⟩

/-- The entries set one after another, so that the last one of a key stands. -/
def ofList (l : List (κ × β)) : OrderedMap κ β := l.foldl (fun m e => m.set e.1 e.2) empty

def keys (m : OrderedMap κ β) : List κ := m.entries.map Prod.fst

def values (m : OrderedMap κ β) : List β := m.entries.map Prod.snd

def lookup (m : OrderedMap κ β) (k : κ) : Option β := m.entries.lookup k

theorem lookup_of_mem (m : OrderedMap κ β) {e : κ × β} (h : e ∈ m.entries) :
    m.lookup e.1 = some e.2 := by
  obtain ⟨before, after, hsplit⟩ := List.append_of_mem h
  refine List.lookup_eq_some_iff.mpr ⟨before, after, hsplit, fun d hd => ?_⟩
  have hsorted := m.sorted
  rw [hsplit, List.pairwise_append] at hsorted
  have hlt : d.1 < e.1 := hsorted.2.2 d hd e List.mem_cons_self
  exact bne_iff_ne.mpr (ne_of_gt hlt)

end OrderedMap
end CaenDaq
