import CaenDaq.ChannelClock
import CaenDaq.Transducer
import Mathlib.Data.Nat.Dist
import Mathlib.Algebra.Order.Group.Nat

/-!
# The epoch search finds the nearest count

`unwrap` tries three epochs. Among all the counts with the raw value for their low
bits, in whichever epoch, none is closer to the largest count so far than the one it
settles on, as long as the sums stay below 2^64.
-/

namespace CaenDaq
namespace ChannelClock

open Transducer

/-- `f` is the count closest to `m`, the smaller on a tie, among those that a counter of
the given range shows as `raw`. -/
def IsNearest (range raw m f : ℕ) : Prop :=
  f % range = raw ∧
    ∀ g, g % range = raw → Nat.dist f m < Nat.dist g m ∨ Nat.dist f m = Nat.dist g m ∧ f ≤ g

def unwrapStep (width : ℕ) (c : ChannelClock) (raw : ℕ) : List ℕ × ChannelClock :=
  ([(c.unwrap raw width).1], (c.unwrap raw width).2)

def largest (fulls : List ℕ) : ℕ := fulls.foldl max 0

/-- The reference lies in the clock's epoch, and is zero before the first event. -/
structure OnTime (width : ℕ) (c : ChannelClock) : Prop where
  epoch : c.reference / 2 ^ width = c.epoch
  fresh : c.seen = false → c.reference = 0

variable {c : ChannelClock} {width raw range : ℕ}

theorem largest_concat (fulls : List ℕ) (f : ℕ) :
    largest (fulls ++ [f]) = max (largest fulls) f := by
  simp only [largest, List.foldl_append, List.foldl_cons, List.foldl_nil]

theorem distance_eq_dist (f m : ℕ) : distance f m = Nat.dist f m := by
  unfold distance Nat.dist
  split <;> omega

theorem candidates_ascend (c : ChannelClock) : (candidates c).Pairwise (· < ·) := by
  simp only [candidates]
  cases c.seen with
  | false => exact List.Pairwise.nil
  | true => exact List.pairwise_lt_range'

theorem foldl_improve_strict (cs : List ℕ) (b : ℕ × ℕ) :
    cs.foldl (improve c raw range) b = b ∨ (cs.foldl (improve c raw range) b).2 < b.2 := by
  induction cs generalizing b with
  | nil => exact Or.inl rfl
  | cons e cs ih =>
    rw [List.foldl_cons]
    by_cases hd : distance (place raw range e) c.reference < b.2
    · have hstep : improve c raw range b e = (e, distance (place raw range e) c.reference) := by
        simp only [improve, if_pos hd]
      right
      rcases ih (improve c raw range b e) with h | h
      · rw [h, hstep]
        exact hd
      · rw [hstep] at h ⊢
        exact h.trans hd
    · have hstep : improve c raw range b e = b := by simp only [improve, if_neg hd]
      rw [hstep]
      exact ih b

/-- Over ascending candidates the search keeps the first of those at the smallest
distance, since only a strictly smaller one replaces it. -/
theorem foldl_improve_first {cs : List ℕ} (hcs : cs.Pairwise (· < ·)) (b : ℕ × ℕ) :
    ∀ e ∈ cs, (cs.foldl (improve c raw range) b).2 < distance (place raw range e) c.reference ∨
      (cs.foldl (improve c raw range) b).2 = distance (place raw range e) c.reference ∧
        (cs.foldl (improve c raw range) b = b ∨ (cs.foldl (improve c raw range) b).1 ≤ e) := by
  induction cs generalizing b with
  | nil => simp
  | cons x cs ih =>
    obtain ⟨hx, hcs⟩ := List.pairwise_cons.mp hcs
    have hrest := ih hcs (improve c raw range b x)
    have hstrict := @foldl_improve_strict c raw range cs (improve c raw range b x)
    rw [List.foldl_cons]
    generalize hr : cs.foldl (improve c raw range) (improve c raw range b x) = r at hrest hstrict ⊢
    by_cases hd : distance (place raw range x) c.reference < b.2
    · have hstep : improve c raw range b x = (x, distance (place raw range x) c.reference) := by
        simp only [improve, if_pos hd]
      rw [hstep] at hrest hstrict
      intro e he
      rcases List.mem_cons.mp he with rfl | he
      · rcases hstrict with h | h
        · exact Or.inr ⟨by rw [h], Or.inr (by rw [h])⟩
        · exact Or.inl h
      · rcases hrest e he with h | ⟨heq, h | h⟩
        · exact Or.inl h
        · exact Or.inr ⟨heq, Or.inr (by rw [h]; exact (hx e he).le)⟩
        · exact Or.inr ⟨heq, Or.inr h⟩
    · have hstep : improve c raw range b x = b := by simp only [improve, if_neg hd]
      rw [hstep] at hrest hstrict
      intro e he
      rcases List.mem_cons.mp he with rfl | he
      · rcases hstrict with h | h
        · rw [h]
          rcases Nat.lt_or_eq_of_le (Nat.le_of_not_lt hd) with hlt | heq
          · exact Or.inl hlt
          · exact Or.inr ⟨heq, Or.inl rfl⟩
        · exact Or.inl (h.trans_le (Nat.le_of_not_lt hd))
      · exact hrest e he

/-- The epoch settled on is the first of the closest candidates. -/
theorem best_first {e : ℕ} (he : e ∈ candidates c)
    (hd : distance (place raw range e) c.reference < 2 ^ 64 - 1) :
    best c raw range ∈ candidates c ∧ ∀ e ∈ candidates c,
      distance (place raw range (best c raw range)) c.reference <
          distance (place raw range e) c.reference ∨
        distance (place raw range (best c raw range)) c.reference =
          distance (place raw range e) c.reference ∧ best c raw range ≤ e := by
  obtain ⟨_, hall, hmem⟩ := @foldl_improve c raw range (candidates c) (c.epoch, 2 ^ 64 - 1)
  have hfirst := @foldl_improve_first c raw range _ (candidates_ascend c) (c.epoch, 2 ^ 64 - 1)
  have hmoved : (candidates c).foldl (improve c raw range) (c.epoch, 2 ^ 64 - 1) ≠
      (c.epoch, 2 ^ 64 - 1) := by
    intro h
    have hle := hall e he
    rw [h] at hle
    exact absurd hd (Nat.not_lt.mpr hle)
  obtain ⟨hin, hdist⟩ := hmem.resolve_left hmoved
  refine ⟨hin, fun e he => ?_⟩
  rw [best, ← hdist]
  exact (hfirst e he).imp id fun h => ⟨h.1, h.2.resolve_left hmoved⟩

theorem place_exact (htime : OnTime width c) (hroom : c.reference + 2 * 2 ^ width ≤ 2 ^ 64)
    (hraw : raw < 2 ^ width) {e : ℕ} (he : e ≤ c.epoch + 1) :
    place raw (2 ^ width) e = raw + e * 2 ^ width := by
  have hle : c.epoch * 2 ^ width ≤ c.reference := by
    rw [← htime.epoch]
    exact Nat.div_mul_le_self _ _
  have hmul : e * 2 ^ width ≤ (c.epoch + 1) * 2 ^ width := Nat.mul_le_mul_right _ he
  rw [Nat.succ_mul] at hmul
  exact Nat.mod_eq_of_lt (by omega)

/-- In the epoch of `m` and the ones next to it lies the count nearest to `m`: one further
off is further than the count of the neighbouring epoch on its side. -/
theorem isNearest_of_neighbours {m b : ℕ} (hraw : raw < range)
    (hb : ∀ k, k ≤ m / range + 1 → m / range ≤ k + 1 →
      Nat.dist (raw + b * range) m < Nat.dist (raw + k * range) m ∨
        Nat.dist (raw + b * range) m = Nat.dist (raw + k * range) m ∧ b ≤ k) :
    IsNearest range raw m (raw + b * range) := by
  have hpos : 0 < range := Nat.zero_lt_of_lt hraw
  have hlow : m / range * range ≤ m := Nat.div_mul_le_self m range
  have hhigh : m < (m / range + 1) * range := Nat.lt_mul_of_div_lt (Nat.lt_succ_self _) hpos
  refine ⟨by rw [Nat.add_mul_mod_self_right, Nat.mod_eq_of_lt hraw], fun g hg => ?_⟩
  have hwhole : raw + g / range * range = g := by
    rw [← hg, Nat.mul_comm]
    exact Nat.mod_add_div g range
  rw [← hwhole]
  generalize g / range = k at *
  by_cases hup : k ≤ m / range + 1
  · by_cases hdown : m / range ≤ k + 1
    · refine (hb k hup hdown).imp id fun h => ⟨h.1, ?_⟩
      exact Nat.add_le_add_left (Nat.mul_le_mul_right range h.2) raw
    · -- two epochs or more below: the one just below is closer
      have hnear := hb (m / range - 1) (by omega) (by omega)
      have hstep : (k + 1) * range ≤ (m / range - 1) * range := Nat.mul_le_mul_right range (by omega)
      have hprev : (m / range - 1) * range + range = m / range * range := by
        rw [← Nat.succ_mul, Nat.succ_eq_add_one, Nat.sub_add_cancel (by omega)]
      rw [Nat.succ_mul] at hstep
      left
      unfold Nat.dist at hnear ⊢
      omega
  · -- two epochs or more above: the next one is closer
    have hnear := hb (m / range + 1) (Nat.le_refl _) (by omega)
    have hstep : (m / range + 1 + 1) * range ≤ k * range := Nat.mul_le_mul_right range (by omega)
    rw [Nat.succ_mul] at hstep
    left
    unfold Nat.dist at hnear ⊢
    omega

theorem unwrap_best (hwidth : width < 64) (c : ChannelClock) (raw : ℕ) :
    (c.unwrap raw width).1 = place raw (2 ^ width) (best c raw (2 ^ width)) ∧
      (c.unwrap raw width).2.epoch = max c.epoch (best c raw (2 ^ width)) := by
  have hrange : ¬64 ≤ width := by omega
  have hne : 2 ^ width ≠ 0 := (Nat.two_pow_pos width).ne'
  simp only [unwrap, if_neg hrange]
  refine ⟨if_pos hne, ?_⟩
  split
  · rename_i h
    exact (max_eq_right h.2.le).symm
  · rename_i h
    exact (max_eq_left (Nat.le_of_not_lt fun hlt => h ⟨hne, hlt⟩)).symm

/-- The epoch settled on places the raw value at the count nearest to the reference. -/
theorem best_nearest (htime : OnTime width c) (hroom : c.reference + 2 * 2 ^ width ≤ 2 ^ 64)
    (hraw : raw < 2 ^ width) :
    IsNearest (2 ^ width) raw c.reference (raw + best c raw (2 ^ width) * 2 ^ width) := by
  refine isNearest_of_neighbours hraw fun k hup hdown => ?_
  rw [htime.epoch] at hup hdown
  cases hs : c.seen with
  | false =>
    have href := htime.fresh hs
    have hepoch : c.epoch = 0 := by rw [← htime.epoch, href, Nat.zero_div]
    have hbest : best c raw (2 ^ width) = 0 := by
      simp only [best, candidates, hs, Bool.false_eq_true, if_false, List.foldl_nil, hepoch]
    rw [hbest, href, Nat.zero_mul]
    unfold Nat.dist
    omega
  | true =>
    have hplace : ∀ e ∈ candidates c, distance (place raw (2 ^ width) e) c.reference =
        Nat.dist (raw + e * 2 ^ width) c.reference := by
      intro e he
      rw [place_exact htime hroom hraw (mem_candidates.mp he).2.2, distance_eq_dist]
    have hcur : c.epoch ∈ candidates c := mem_candidates.mpr ⟨hs, Nat.le_succ _, Nat.le_succ _⟩
    have hnear : distance (place raw (2 ^ width) c.epoch) c.reference < 2 ^ 64 - 1 := by
      have hle : c.epoch * 2 ^ width ≤ c.reference := by
        rw [← htime.epoch]
        exact Nat.div_mul_le_self _ _
      rw [hplace c.epoch hcur]
      unfold Nat.dist
      omega
    obtain ⟨hin, hfirst⟩ := best_first hcur hnear
    have hk := mem_candidates.mpr ⟨hs, hdown, hup⟩
    have h := hfirst k hk
    rwa [hplace _ hin, hplace k hk] at h

theorem unwrap_onTime (hwidth : width < 64) (htime : OnTime width c)
    (hroom : c.reference + 2 * 2 ^ width ≤ 2 ^ 64) (hraw : raw < 2 ^ width) :
    IsNearest (2 ^ width) raw c.reference (c.unwrap raw width).1 ∧
      OnTime width (c.unwrap raw width).2 := by
  have hpos : 0 < 2 ^ width := Nat.two_pow_pos width
  obtain ⟨hfull, hepoch⟩ := unwrap_best hwidth c raw
  obtain ⟨hseen, href⟩ := unwrap_reference c raw width
  have hnext : best c raw (2 ^ width) ≤ c.epoch + 1 := (best_neighbour c raw (2 ^ width)).2
  rw [place_exact htime hroom hraw hnext] at hfull
  have hdiv : (raw + best c raw (2 ^ width) * 2 ^ width) / 2 ^ width = best c raw (2 ^ width) := by
    rw [Nat.add_mul_div_right _ _ hpos, Nat.div_eq_of_lt hraw, Nat.zero_add]
  refine ⟨?_, ⟨?_, fun h => absurd h (by rw [hseen]; decide)⟩⟩
  · rw [hfull]
    exact best_nearest htime hroom hraw
  · have hmono : Monotone fun m : ℕ => m / 2 ^ width := fun _ _ h => Nat.div_le_div_right h
    rw [href, hepoch, hfull, ← htime.epoch, hmono.map_max, hdiv]

/-- The counts given to the raw values of a board from the start of a run on. -/
def countsOf (width : ℕ) (raws : List ℕ) : List ℕ := (run (unwrapStep width) {} raws).1

def clockAfter (width : ℕ) (raws : List ℕ) : ChannelClock := (run (unwrapStep width) {} raws).2

theorem countsOf_append (width : ℕ) (before after : List ℕ) :
    countsOf width (before ++ after) =
      countsOf width before ++ (run (unwrapStep width) (clockAfter width before) after).1 := by
  simp only [countsOf, clockAfter, run_append]

theorem countsOf_concat (width : ℕ) (before : List ℕ) (raw : ℕ) :
    countsOf width (before ++ [raw]) =
      countsOf width before ++ [((clockAfter width before).unwrap raw width).1] :=
  countsOf_append width before [raw]

theorem clockAfter_concat (width : ℕ) (before : List ℕ) (raw : ℕ) :
    clockAfter width (before ++ [raw]) = ((clockAfter width before).unwrap raw width).2 := by
  simp only [clockAfter, run_append, run_cons, run_nil, unwrapStep]

/-- After any number of events the reference is the largest count so far and lies in the
clock's epoch, as long as there are two epochs of room above every count. -/
theorem clockAfter_spec (hwidth : width < 64) {raws : List ℕ} (hraws : ∀ r ∈ raws, r < 2 ^ width)
    (hroom : ∀ f ∈ countsOf width raws, f + 2 * 2 ^ width ≤ 2 ^ 64) :
    OnTime width (clockAfter width raws) ∧
      (clockAfter width raws).reference = largest (countsOf width raws) ∧
      (clockAfter width raws).reference + 2 * 2 ^ width ≤ 2 ^ 64 := by
  induction raws using List.reverseRecOn with
  | nil =>
    have hpow : 2 ^ width ≤ 2 ^ 63 := Nat.pow_le_pow_right (by decide) (by omega)
    refine ⟨⟨Nat.zero_div _, fun _ => rfl⟩, rfl, ?_⟩
    show 0 + 2 * 2 ^ width ≤ 2 ^ 64
    omega
  | append_singleton before raw ih =>
    rw [countsOf_concat] at hroom
    obtain ⟨htime, href, hbelow⟩ := ih (fun r hr => hraws r (by simp [hr]))
      (fun f hf => hroom f (by simp [hf]))
    obtain ⟨_, hnext⟩ := unwrap_onTime hwidth htime hbelow (hraws raw (by simp))
    obtain ⟨_, hmax⟩ := unwrap_reference (clockAfter width before) raw width
    rw [clockAfter_concat, countsOf_concat, largest_concat, hmax, href]
    refine ⟨hnext, rfl, ?_⟩
    rcases max_cases (largest (countsOf width before))
      ((clockAfter width before).unwrap raw width).1 with ⟨h, _⟩ | ⟨h, _⟩
    · rw [h, ← href]
      exact hbelow
    · rw [h]
      exact hroom _ (by simp)

theorem isNearest_unique {m f tick : ℕ} (hwidth : 1 ≤ width)
    (hf : IsNearest (2 ^ width) (tick % 2 ^ width) m f) (ht : Nat.dist tick m < 2 ^ (width - 1)) :
    f = tick := by
  have hhalf : 2 ^ width = 2 * 2 ^ (width - 1) := by
    rw [← Nat.pow_succ', Nat.succ_eq_add_one, Nat.sub_add_cancel hwidth]
  obtain ⟨hmod, hmin⟩ := hf
  have hle : Nat.dist f m ≤ Nat.dist tick m := by
    rcases hmin tick rfl with h | ⟨h, _⟩
    · exact h.le
    · exact h.le
  unfold Nat.dist at hle ht
  rcases Nat.le_total f tick with h | h
  · have hdvd := Nat.dvd_of_mod_eq_zero (Nat.sub_mod_eq_zero_of_mod_eq hmod.symm)
    have hzero := Nat.eq_zero_of_dvd_of_lt hdvd (by omega)
    omega
  · have hdvd := Nat.dvd_of_mod_eq_zero (Nat.sub_mod_eq_zero_of_mod_eq hmod)
    have hzero := Nat.eq_zero_of_dvd_of_lt hdvd (by omega)
    omega

theorem isNearest_first {f tick : ℕ} (hf : IsNearest range (tick % range) 0 f)
    (ht : tick < range) : f = tick := by
  obtain ⟨hmod, hmin⟩ := hf
  have hle : Nat.dist f 0 ≤ Nat.dist tick 0 := by
    rcases hmin tick rfl with h | ⟨h, _⟩
    · exact h.le
    · exact h.le
  have hge : f % range ≤ f := Nat.mod_le f range
  rw [hmod, Nat.mod_eq_of_lt ht] at hge
  unfold Nat.dist at hle
  omega

/-- From a fresh clock, and below the last two epochs of 64 bits, every event is given
the count nearest to the largest so far in any epoch. The reference is that largest count
and lies in the clock's epoch. So counts less than half the range away from the running
maximum come back as they were. -/
theorem unwrap_nearest (hwidth : 1 ≤ width) (hwidth' : width ≤ 63) {raws : List ℕ}
    (hraws : ∀ r ∈ raws, r < 2 ^ width)
    (hcounts : ∀ f ∈ countsOf width raws, f < 2 ^ 64 - 2 ^ (width + 1)) :
    (∀ before raw after, raws = before ++ raw :: after →
      IsNearest (2 ^ width) raw (largest (countsOf width before))
          ((clockAfter width before).unwrap raw width).1 ∧
        (clockAfter width before).reference ≤ (clockAfter width (before ++ [raw])).reference) ∧
    (∀ before after, raws = before ++ after →
      (clockAfter width before).reference = largest (countsOf width before) ∧
        (clockAfter width before).reference / 2 ^ width = (clockAfter width before).epoch) ∧
    (∀ ticks : List ℕ, raws = ticks.map (· % 2 ^ width) → (∀ t ∈ ticks.head?, t < 2 ^ width) →
      (∀ (i : ℕ) (h : i < ticks.length), i ≠ 0 →
        Nat.dist ticks[i] (largest (ticks.take i)) < 2 ^ (width - 1)) →
      countsOf width raws = ticks) := by
  have hlt : width < 64 := by omega
  have hspec : ∀ before after, raws = before ++ after → OnTime width (clockAfter width before) ∧
      (clockAfter width before).reference = largest (countsOf width before) ∧
      (clockAfter width before).reference + 2 * 2 ^ width ≤ 2 ^ 64 := by
    intro before after h
    refine clockAfter_spec hlt (fun r hr => hraws r (by simp [h, hr])) fun f hf => ?_
    have hcount := hcounts f (by rw [h, countsOf_append]; exact List.mem_append_left _ hf)
    rw [Nat.pow_succ'] at hcount
    omega
  have hnear : ∀ before raw after, raws = before ++ raw :: after →
      IsNearest (2 ^ width) raw (largest (countsOf width before))
        ((clockAfter width before).unwrap raw width).1 := by
    intro before raw after h
    obtain ⟨htime, href, hbelow⟩ := hspec before (raw :: after) h
    rw [← href]
    exact (unwrap_onTime hlt htime hbelow (hraws raw (by simp [h]))).1
  refine ⟨fun before raw after h => ⟨hnear before raw after h, ?_⟩,
    fun before after h => ⟨(hspec before after h).2.1, (hspec before after h).1.epoch⟩, ?_⟩
  · rw [clockAfter_concat, (unwrap_reference _ raw width).2]
    exact le_max_left _ _
  · intro ticks hticks hfirst hclose
    -- by induction on how many of the ticks have come, from the left
    have hall : ∀ before after, ticks = before ++ after →
        countsOf width (before.map (· % 2 ^ width)) = before := by
      intro before
      induction before using List.reverseRecOn with
      | nil => exact fun _ _ => rfl
      | append_singleton before t ih =>
        intro after h
        rw [List.append_assoc, List.singleton_append] at h
        have hbefore := ih (t :: after) h
        have hn := hnear (before.map (· % 2 ^ width)) (t % 2 ^ width) (after.map (· % 2 ^ width))
          (by rw [hticks, h, List.map_append, List.map_cons])
        rw [hbefore] at hn
        rw [List.map_append, List.map_cons, List.map_nil, countsOf_concat, hbefore]
        congr 2
        by_cases hnil : before = []
        · subst hnil
          exact isNearest_first hn (hfirst t (by rw [h]; rfl))
        · have hlen : before.length ≠ 0 := fun hz => hnil (List.length_eq_zero_iff.mp hz)
          have hdist := hclose before.length (by simp [h]) hlen
          simp only [h, List.getElem_append_right (Nat.le_refl _), Nat.sub_self,
            List.getElem_cons_zero, List.take_left'] at hdist
          exact isNearest_unique hwidth hn hdist
    have h := hall ticks [] (List.append_nil ticks).symm
    rwa [← hticks] at h

/-- A four-bit counter: a straggler of the epoch before the wrap, and one after it. -/
theorem unwrap_nearest_around_wrap : countsOf 4 [3, 9, 14, 2, 15, 5] = [3, 9, 14, 18, 15, 21] :=
  (unwrap_nearest (by decide) (by decide) (by decide) (by decide +kernel)).2.2
    [3, 9, 14, 18, 15, 21] rfl (by decide) (by decide +kernel)

end ChannelClock
end CaenDaq
