import Mathlib.Data.List.Nodup
import Mathlib.Logic.Function.Basic

/-!
# Names of the part files

Every part has a name from its run and its cycle. A file that is already there is never
opened again: the name gets a number then, the first that is free.
-/

namespace CaenDaq

abbrev Directory := String → Option (List (BitVec 8))

namespace PartNames

variable (runNumber : ℕ)

/-- `std::setw(4) << std::setfill('0')` -/
def fourDigits (n : ℕ) : String := String.ofList ((Nat.toDigits 10 n).leftpad 4 '0')

def stem (cycle : ℕ) : String := "run_" ++ toString runNumber ++ "_" ++ fourDigits cycle

def extension : String := ".caendat"

def makePath (cycle : ℕ) : String := stem runNumber cycle ++ extension

def numberedPath (cycle n : ℕ) : String :=
  stem runNumber cycle ++ "_" ++ toString n ++ extension

def uniquePath (files : Directory) (cycle : ℕ) : String :=
  let intended := makePath runNumber cycle
  if (files intended).isNone then intended
  else
    (((List.range' 1 99999).map (numberedPath runNumber cycle)).find?
      fun cand => (files cand).isNone).getD intended

def candidates (cycle : ℕ) : List String :=
  makePath runNumber cycle :: (List.range' 1 99999).map (numberedPath runNumber cycle)

def Leaves (files : Directory) (cycle : ℕ) : Prop :=
  ∃ name ∈ candidates runNumber cycle, files name = none

variable {runNumber}

theorem uniquePath_candidate (files : Directory) (cycle : ℕ) :
    uniquePath runNumber files cycle ∈ candidates runNumber cycle := by
  simp only [uniquePath]
  split
  · exact List.mem_cons_self
  · cases hfind : ((List.range' 1 99999).map (numberedPath runNumber cycle)).find?
        fun cand => (files cand).isNone with
    | none => exact List.mem_cons_self
    | some name => exact List.mem_cons_of_mem _ (List.mem_of_find?_eq_some hfind)

theorem uniquePath_free {files : Directory} {cycle : ℕ} (h : Leaves runNumber files cycle) :
    files (uniquePath runNumber files cycle) = none := by
  obtain ⟨name, hname, hfree⟩ := h
  simp only [uniquePath]
  split
  · next hintended => exact Option.isNone_iff_eq_none.mp hintended
  · next hintended =>
    cases hfind : ((List.range' 1 99999).map (numberedPath runNumber cycle)).find?
        fun cand => (files cand).isNone with
    | some found =>
      have hfound := List.find?_some hfind
      exact Option.isNone_iff_eq_none.mp hfound
    | none =>
      rw [List.find?_eq_none] at hfind
      rcases List.mem_cons.mp hname with rfl | hnumbered
      · rw [hfree] at hintended
        exact absurd rfl hintended
      · have htaken := hfind name hnumbered
        rw [hfree] at htaken
        exact absurd rfl htaken

theorem uniquePath_congr {files files' : Directory}
    (h : ∀ name, (files name).isNone = (files' name).isNone) (cycle : ℕ) :
    uniquePath runNumber files cycle = uniquePath runNumber files' cycle := by
  simp only [uniquePath, h]

/-- The number that stands behind the run number. -/
def cycleOf (runNumber : ℕ) (name : String) : ℕ :=
  Nat.ofDigitChars 10
    ((name.toList.drop ("run_" ++ toString runNumber ++ "_").toList.length).takeWhile
      Char.isDigit) 0

theorem fourDigits_isDigit {n : ℕ} {c : Char} (h : c ∈ (fourDigits n).toList) :
    c.isDigit = true := by
  rw [fourDigits, String.toList_ofList, List.leftpad] at h
  rcases List.mem_append.mp h with h | h
  · rw [List.eq_of_mem_replicate h]
    decide
  · exact Nat.isDigit_of_mem_toDigits (by decide) (by decide) h

theorem fourDigits_value (n : ℕ) : Nat.ofDigitChars 10 (fourDigits n).toList 0 = n := by
  rw [fourDigits, String.toList_ofList, List.leftpad, Nat.ofDigitChars_append,
    Nat.ofDigitChars_replicate_zero, Nat.mul_zero, Nat.ofDigitChars_ten_toDigits]

theorem cycleOf_stem (cycle : ℕ) {rest : String} (h : rest.toList.takeWhile Char.isDigit = []) :
    cycleOf runNumber (stem runNumber cycle ++ rest) = cycle := by
  have hdigits : ((fourDigits cycle).toList ++ rest.toList).takeWhile Char.isDigit =
      (fourDigits cycle).toList := by
    rw [List.takeWhile_append_of_pos fun c hc => fourDigits_isDigit hc, h, List.append_nil]
  have hname : (stem runNumber cycle ++ rest).toList =
      ("run_" ++ toString runNumber ++ "_").toList ++
        ((fourDigits cycle).toList ++ rest.toList) := by
    rw [stem, String.toList_append, String.toList_append, List.append_assoc]
  rw [cycleOf, hname, List.drop_left, hdigits, fourDigits_value]

theorem cycleOf_candidate {cycle : ℕ} {name : String} (h : name ∈ candidates runNumber cycle) :
    cycleOf runNumber name = cycle := by
  rcases List.mem_cons.mp h with rfl | h
  · exact cycleOf_stem cycle (by decide)
  · obtain ⟨n, _, rfl⟩ := List.mem_map.mp h
    rw [numberedPath, String.append_assoc, String.append_assoc]
    refine cycleOf_stem cycle ?_
    rw [String.toList_append]
    rfl

/-- A run has put files with these contents, one for each cycle, into the directory, and
touched nothing else in it. -/
structure Stored (runNumber : ℕ) (before files : Directory) (names : List String)
    (contents : List (List (BitVec 8))) : Prop where
  contents : names.map files = contents.map some
  nodup : names.Nodup
  named : ∀ i (h : i < names.length), names[i] ∈ candidates runNumber i
  fresh : ∀ name ∈ names, before name = none
  untouched : ∀ name, name ∉ names → files name = before name

theorem Stored.start (before : Directory) : Stored runNumber before before [] [] where
  contents := rfl
  nodup := List.nodup_nil
  named := fun i h => absurd h (Nat.not_lt_zero i)
  fresh := fun _ h => absurd h List.not_mem_nil
  untouched := fun _ _ => rfl

variable {before files : Directory} {names : List String} {contents : List (List (BitVec 8))}

theorem Stored.length (h : Stored runNumber before files names contents) :
    names.length = contents.length := by
  have hlength := congrArg List.length h.contents
  rwa [List.length_map, List.length_map] at hlength

theorem Stored.exists (h : Stored runNumber before files names contents) {name : String}
    (hname : name ∈ names) : (files name).isNone = false := by
  have hfile : files name ∈ names.map files := List.mem_map_of_mem hname
  rw [h.contents] at hfile
  obtain ⟨content, _, hcontent⟩ := List.mem_map.mp hfile
  rw [← hcontent]
  rfl

theorem Stored.extend {name : String} {content content' : List (BitVec 8)}
    (h : Stored runNumber before files (names ++ [name]) (contents ++ [content])) :
    Stored runNumber before (Function.update files name (some content')) (names ++ [name])
      (contents ++ [content']) := by
  have hnodup := List.nodup_append.mp h.nodup
  have hothers : name ∉ names := fun hmem =>
    hnodup.2.2 name hmem name List.mem_cons_self rfl
  have hcontents := h.contents
  rw [List.map_append, List.map_append] at hcontents
  have hinit := (List.append_inj' hcontents rfl).1
  refine ⟨?_, h.nodup, h.named, h.fresh, ?_⟩
  · rw [List.map_append, List.map_append, ← hinit]
    congr 1
    · refine List.map_congr_left fun other hother => Function.update_of_ne ?_ _ _
      exact fun heq => hothers (heq ▸ hother)
    · simp
  · intro other hother
    have hne : other ≠ name := fun heq => hother (heq ▸ List.mem_append_right _ List.mem_cons_self)
    rw [Function.update_of_ne hne]
    exact h.untouched other hother

/-- The names of the other cycles are no names of the next one, so what the directory
left to it at first is left still. -/
theorem Stored.leaves (h : Stored runNumber before files names contents)
    (hleaves : Leaves runNumber before names.length) :
    Leaves runNumber files names.length := by
  obtain ⟨name, hname, hfree⟩ := hleaves
  refine ⟨name, hname, ?_⟩
  have hnew : name ∉ names := by
    intro hmem
    obtain ⟨i, hi, rfl⟩ := List.getElem_of_mem hmem
    have hcycle := cycleOf_candidate (h.named i hi)
    rw [cycleOf_candidate hname] at hcycle
    omega
  rw [h.untouched name hnew]
  exact hfree

theorem Stored.create (h : Stored runNumber before files names contents)
    (hleaves : Leaves runNumber before names.length) (content : List (BitVec 8)) :
    Stored runNumber before
      (Function.update files (uniquePath runNumber files names.length) (some content))
      (names ++ [uniquePath runNumber files names.length]) (contents ++ [content]) := by
  have hfree := uniquePath_free (h.leaves hleaves)
  have hcandidate : uniquePath runNumber files names.length ∈ candidates runNumber names.length :=
    uniquePath_candidate files names.length
  generalize uniquePath runNumber files names.length = name at hfree hcandidate
  have hnew : name ∉ names := by
    intro hmem
    have hsome := h.exists hmem
    rw [hfree] at hsome
    exact absurd hsome (by decide)
  have hfresh : before name = none := (h.untouched name hnew).symm.trans hfree
  refine ⟨?_, ?_, ?_, ?_, ?_⟩
  · rw [List.map_append, List.map_append, ← h.contents]
    congr 1
    · refine List.map_congr_left fun other hother => Function.update_of_ne ?_ _ _
      exact fun heq => hnew (heq ▸ hother)
    · simp
  · exact List.nodup_append.mpr ⟨h.nodup, List.nodup_singleton name,
      fun other hother other' hother' heq =>
        hnew (List.mem_singleton.mp hother' ▸ heq ▸ hother)⟩
  · intro i hi
    by_cases hlast : i < names.length
    · rw [List.getElem_append_left hlast]
      exact h.named i hlast
    · have hi' : i = names.length := by
        rw [List.length_append, List.length_singleton] at hi
        omega
      subst hi'
      rw [List.getElem_concat_length rfl]
      exact hcandidate
  · intro other hother
    rcases List.mem_append.mp hother with hother | hother
    · exact h.fresh other hother
    · rw [List.mem_singleton.mp hother]
      exact hfresh
  · intro other hother
    have hne : other ≠ name := fun heq => hother (heq ▸ List.mem_append_right _ List.mem_cons_self)
    rw [Function.update_of_ne hne]
    exact h.untouched other fun hmem => hother (List.mem_append_left _ hmem)

end PartNames
end CaenDaq
