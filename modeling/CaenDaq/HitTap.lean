import CaenDaq.Batches
import CaenDaq.BoardInfo
import CaenDaq.Transducer

/-!
# The hit tap

`HitTap`: the hits of one board between the decode thread, which appends the hits of a
block at once, and a consumer that takes everything held. The tap is bounded and can be
switched off; whatever the order of the calls, each hit that was appended while the tap was
on is taken, held, counted as dropped, or was thrown away when the tap was switched off.
-/

namespace CaenDaq

open Transducer Batches

structure Hit where
  timePs : ℤ
  energy : ℕ
  channel : ℕ
  flags : ℕ
  deriving DecidableEq, Repr

structure HitTap where
  enabled : Bool := false
  capacity : ℕ := 2 ^ 20
  hits : List Hit := []
  dropped : ℕ := 0

/-- What can be called, from any thread. -/
inductive TapCall
  | append (batch : List Hit)
  | take
  | setEnabled (on : Bool)
  | setCapacity (n : ℕ)

namespace HitTap

def fromEvent (e : DecodedEvent) : Hit where
  timePs := e.timePs
  energy := if e.energy ≠ 0 then e.energy else e.qlong
  channel := e.channel % 2 ^ 8
  flags := (if e.pileup then 1 else 0) ||| (if e.satu then 2 else 0) ||| (if e.lost then 4 else 0)

def setEnabled (s : HitTap) (on : Bool) : HitTap :=
  { s with enabled := on, hits := if on then s.hits else [] }

def setCapacity (s : HitTap) (n : ℕ) : HitTap := { s with capacity := if n ≠ 0 then n else 1 }

def append (s : HitTap) (batch : List Hit) : HitTap :=
  if batch.isEmpty then s
  else if !s.enabled then s
  else
    let room := if s.capacity > s.hits.length then s.capacity - s.hits.length else 0
    let n := if batch.length < room then batch.length else room
    { s with hits := s.hits ++ batch.take n, dropped := s.dropped + (batch.length - n) }

def take (s : HitTap) : List Hit × HitTap := (s.hits, { s with hits := [] })

/-- One call, and what it hands to the consumer. -/
def step (s : HitTap) : TapCall → List Hit × HitTap
  | .append batch => ([], s.append batch)
  | .take => s.take
  | .setEnabled on => ([], s.setEnabled on)
  | .setCapacity n => ([], s.setCapacity n)

def batchOf (events : List DecodedEvent) : List Hit :=
  (events.filter fun e => 0 < e.timePs).map fromEvent

/-- The end of a block in `DecodeStage::loop`: whether it is tapped was asked before. -/
def tapBlock (tapping : Bool) (events : List DecodedEvent) : List TapCall :=
  if tapping then [.append (batchOf events)] else []

def noted {β : Type} (note : HitTap → TapCall → List β) (s : HitTap) (calls : List TapCall) :
    List β :=
  (run (fun s call => (note s call, (step s call).2)) s calls).1

def offered : HitTap → List TapCall → List (List Hit) :=
  noted fun s call => match call with
    | .append batch => if s.enabled then [batch] else []
    | _ => []

def discarded : HitTap → List TapCall → List Hit :=
  noted fun s call => match call with
    | .setEnabled false => s.hits
    | _ => []

variable {β : Type}

theorem run_note (note : HitTap → TapCall → List β) (s : HitTap) (calls : List TapCall) :
    (run (fun s call => (note s call, (step s call).2)) s calls).2 = (run step s calls).2 := by
  induction calls generalizing s with
  | nil => rfl
  | cons call calls ih =>
    rw [run_cons, run_cons]
    exact ih _

theorem noted_snoc (note : HitTap → TapCall → List β) (s : HitTap) (calls : List TapCall)
    (call : TapCall) : noted note s (calls ++ [call]) =
      noted note s calls ++ note (run step s calls).2 call := by
  simp only [noted, run_append, run_note, run_cons, run_nil, List.append_nil]

theorem run_snoc (s : HitTap) (calls : List TapCall) (call : TapCall) :
    run step s (calls ++ [call]) =
      ((run step s calls).1 ++ (step (run step s calls).2 call).1,
        (step (run step s calls).2 call).2) := by
  simp only [run_append, run_cons, run_nil, List.append_nil]

theorem append_off {s : HitTap} (h : s.enabled = false) (batch : List Hit) : s.append batch = s := by
  rw [append, h]
  split <;> rfl

theorem append_on {s : HitTap} (h : s.enabled = true) (batch : List Hit) :
    ∃ kept, kept <+: batch ∧ (s.append batch).hits = s.hits ++ kept ∧
      (s.append batch).dropped + kept.length = s.dropped + batch.length := by
  by_cases hempty : batch.isEmpty = true
  · refine ⟨[], List.nil_prefix, ?_, ?_⟩
    · rw [append, if_pos hempty, List.append_nil]
    · rw [append, if_pos hempty, List.isEmpty_iff.mp hempty]
  · rw [append, if_neg hempty, h]
    refine ⟨_, List.take_prefix _ batch, rfl, ?_⟩
    rw [List.length_take]
    show s.dropped + (batch.length - _) + _ = _
    split <;> omega

theorem append_capacity (s : HitTap) (batch : List Hit) :
    (s.append batch).hits.length ≤ max s.capacity s.hits.length := by
  unfold append
  split
  · exact Nat.le_max_right _ _
  · split
    · exact Nat.le_max_right _ _
    · rw [List.length_append, List.length_take]
      split <;> split <;> omega

theorem offered_length (calls : List TapCall) :
    (offered {} calls).flatten.length =
      (run step {} calls).1.length + (run step {} calls).2.hits.length +
        (run step {} calls).2.dropped + (discarded {} calls).length := by
  induction calls using List.reverseRecOn with
  | nil => rfl
  | append_singleton calls call ih =>
    rw [run_snoc, offered, noted_snoc, discarded, noted_snoc, List.flatten_append,
      List.length_append, List.length_append, List.length_append]
    change (noted _ _ _).flatten.length = _ + _ + _ + (noted _ _ _).length at ih
    rw [ih]
    generalize (run step {} calls).2 = s
    cases call with
    | append batch =>
      cases hon : s.enabled with
      | false => simp [step, append_off hon]
      | true =>
        obtain ⟨kept, _, hhits, hdropped⟩ := append_on hon batch
        simp only [step, hhits, if_true, List.flatten_singleton, List.length_append,
          List.length_nil]
        omega
    | take => simp [step, HitTap.take]
    | setEnabled on =>
      cases on with
      | false =>
        simp [step, setEnabled]
        omega
      | true => simp [step, setEnabled]
    | setCapacity n => simp [step, setCapacity]

theorem kept_prefixes (calls : List TapCall) :
    Prefixes ((run step {} calls).1 ++ (run step {} calls).2.hits) (offered {} calls) := by
  induction calls using List.reverseRecOn with
  | nil => exact prefixes_nil
  | append_singleton calls call ih =>
    rw [run_snoc, offered, noted_snoc]
    change Prefixes _ (noted _ _ _) at ih
    generalize (run step {} calls).2 = s at ih ⊢
    cases call with
    | append batch =>
      cases hon : s.enabled with
      | false => simpa [step, append_off hon, hon] using ih
      | true =>
        obtain ⟨kept, hkept, hhits, _⟩ := append_on hon batch
        simp only [step, hhits, if_true, List.append_nil]
        rw [← List.append_assoc]
        exact ih.snoc hkept
    | take => simpa [step, HitTap.take] using ih
    | setEnabled on =>
      cases on with
      | false => simpa [step, setEnabled] using ih.of_append
      | true => simpa [step, setEnabled] using ih
    | setCapacity n => simpa [step, setCapacity] using ih

/-- The tap loses no hit that it does not count: whatever is called in whatever order, what
is taken or still held is made of prefixes of the batches appended while the tap was on, and
the numbers add up. A batch appended while it is off changes nothing. -/
theorem hits_accounted (calls : List TapCall) :
    (Prefixes ((run step {} calls).1 ++ (run step {} calls).2.hits) (offered {} calls) ∧
      ((run step {} calls).1 ++ (run step {} calls).2.hits).Sublist (offered {} calls).flatten) ∧
    (offered {} calls).flatten.length =
      (run step {} calls).1.length + (run step {} calls).2.hits.length +
        (run step {} calls).2.dropped + (discarded {} calls).length ∧
    (∀ s batch, (append s batch).hits.length ≤ max s.capacity s.hits.length) ∧
    ∀ s batch, s.enabled = false → append s batch = s :=
  ⟨⟨kept_prefixes calls, (kept_prefixes calls).sublist⟩, offered_length calls, append_capacity,
    fun _ batch h => append_off h batch⟩

/-- Three hits into room for two; then one more, thrown away when the tap is switched off. -/
theorem hits_accounted_off :
    let h : Hit := ⟨1000, 7, 0, 0⟩
    let calls : List TapCall := [.append [h], .setEnabled true, .setCapacity 2, .append [h, h, h],
      .take, .append [h], .setEnabled false]
    (run step {} calls).1 = [h, h] ∧ (run step {} calls).2.dropped = 1 ∧
      (discarded {} calls).length = 1 ∧ (offered {} calls).flatten.length =
        (run step {} calls).1.length + (run step {} calls).2.hits.length +
          (run step {} calls).2.dropped + (discarded {} calls).length :=
  ⟨by decide, by decide, by decide, (hits_accounted _).2.1⟩

theorem mem_offered {calls : List TapCall} {batch : List Hit} (h : batch ∈ offered {} calls) :
    .append batch ∈ calls := by
  induction calls using List.reverseRecOn with
  | nil => exact absurd h List.not_mem_nil
  | append_singleton calls call ih =>
    rw [offered, noted_snoc] at h
    rcases List.mem_append.mp h with hbefore | hlast
    · exact List.mem_append_left _ (ih hbefore)
    · refine List.mem_append_right _ ?_
      cases call with
      | append batch' =>
        obtain ⟨_, hsame⟩ := List.mem_ite_nil_right.mp hlast
        exact List.mem_singleton.mpr (congrArg _ (List.mem_singleton.mp hsame))
      | _ => exact absurd hlast List.not_mem_nil

/-- Where only the decode thread appends, every hit that is taken or held has a time. -/
theorem kept_timed {calls : List TapCall}
    (h : ∀ batch, .append batch ∈ calls → ∃ tapping events, .append batch ∈ tapBlock tapping events) :
    ∀ hit ∈ (run step {} calls).1 ++ (run step {} calls).2.hits, 0 < hit.timePs := by
  intro hit hhit
  obtain ⟨batch, hbatch, hmem⟩ := List.mem_flatten.mp ((kept_prefixes calls).sublist.subset hhit)
  obtain ⟨tapping, events, happend⟩ := h batch (mem_offered hbatch)
  unfold tapBlock at happend
  split at happend
  · cases List.mem_singleton.mp happend
    obtain ⟨e, he, rfl⟩ := List.mem_map.mp hmem
    exact of_decide_eq_true (List.mem_filter.mp he).2
  · exact absurd happend List.not_mem_nil

end HitTap
end CaenDaq
