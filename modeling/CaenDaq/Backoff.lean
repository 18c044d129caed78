import CaenDaq.CallOrder
import CaenDaq.GraphiteClient
import Mathlib.Data.List.Infix
import Mathlib.Tactic.Ring

/-!
# The backoff of the Graphite client

What a call can do to the socket, the backoff and the network, once for all calls, and what
it keeps of the backoff, whatever the operating system answers.
-/

namespace CaenDaq
namespace GraphiteClient

open Transducer CallOrder

def streak (k : ℕ) : NetEvent → ℕ
  | .failure _ => k + 1
  | .success => 0
  | _ => k

def inARow (events : List NetEvent) : ℕ := events.foldl streak 0

def lastFailureStep (last : Option ℤ) : NetEvent → Option ℤ
  | .failure now => some now
  | _ => last

def lastFailure (events : List NetEvent) : Option ℤ := events.foldl lastFailureStep none

def delayAfter : ℕ → ℕ
  | 0 => 0
  | k + 1 => min (kRetryInitial * 2 ^ k) kRetryMax

theorem delayAfter_pos_iff (k : ℕ) : 0 < delayAfter k ↔ 0 < k := by
  cases k with
  | zero => simp [delayAfter]
  | succ k =>
    have hpos : 0 < kRetryInitial * 2 ^ k := Nat.mul_pos (by decide) (Nat.two_pow_pos k)
    simp only [delayAfter, lt_min_iff, hpos, Nat.succ_pos, kRetryMax]
    decide

theorem delayAfter_succ (k : ℕ) :
    (if delayAfter k = 0 then kRetryInitial else min (delayAfter k * 2) kRetryMax) =
      delayAfter (k + 1) := by
  cases k with
  | zero => rfl
  | succ k =>
    have hpos : delayAfter (k + 1) ≠ 0 := ((delayAfter_pos_iff _).mpr (Nat.succ_pos k)).ne'
    rw [if_neg hpos, delayAfter, delayAfter, pow_succ, ← Nat.mul_assoc]
    generalize kRetryInitial * 2 ^ k = n
    simp only [kRetryMax]
    omega

def bytesOn (c : ℕ) (events : List NetEvent) : List UInt8 :=
  events.flatMap fun e =>
    match e with
    | .transmit d bytes => if d = c then bytes else []
    | _ => []

theorem bytesOn_append (c : ℕ) (l l' : List NetEvent) :
    bytesOn c (l ++ l') = bytesOn c l ++ bytesOn c l' := List.flatMap_append

/-- Neither a connect nor the end of a call. -/
def Aside (events : List NetEvent) : Prop :=
  ∀ e ∈ events, (∀ now, e ≠ .connect now) ∧ (∀ now, e ≠ .failure now) ∧ e ≠ .success

def Silent (events : List NetEvent) : Prop := ∀ e ∈ events, ∀ c bytes, e ≠ .transmit c bytes

theorem foldl_unmoved {σ : Type} {f : σ → NetEvent → σ} {l : List NetEvent}
    (h : ∀ e ∈ l, ∀ s, f s e = s) (s : σ) : l.foldl f s = s := by
  induction l generalizing s with
  | nil => rfl
  | cons e l ih =>
    rw [List.foldl_cons, h e List.mem_cons_self]
    exact ih (fun d hd => h d (List.mem_cons_of_mem _ hd)) s

theorem Aside.inARow {l : List NetEvent} (h : Aside l) (past : List NetEvent) :
    inARow (past ++ l) = inARow past := by
  rw [GraphiteClient.inARow, List.foldl_append]
  refine foldl_unmoved (fun e he k => ?_) _
  obtain ⟨_, hfailure, hsuccess⟩ := h e he
  cases e with
  | failure now => exact absurd rfl (hfailure now)
  | success => exact absurd rfl hsuccess
  | _ => rfl

theorem Aside.lastFailure {l : List NetEvent} (h : Aside l) (past : List NetEvent) :
    lastFailure (past ++ l) = lastFailure past := by
  rw [GraphiteClient.lastFailure, List.foldl_append]
  refine foldl_unmoved (fun e he last => ?_) _
  obtain ⟨_, hfailure, _⟩ := h e he
  cases e with
  | failure now => exact absurd rfl (hfailure now)
  | _ => rfl

theorem Aside.append {l l' : List NetEvent} (h : Aside l) (h' : Aside l') : Aside (l ++ l') :=
  fun e he => (List.mem_append.mp he).elim (h e) (h' e)

theorem Silent.append {l l' : List NetEvent} (h : Silent l) (h' : Silent l') : Silent (l ++ l') :=
  fun e he => (List.mem_append.mp he).elim (h e) (h' e)

theorem Silent.bytesOn {l : List NetEvent} (h : Silent l) (c : ℕ) : bytesOn c l = [] := by
  refine List.flatMap_eq_nil_iff.mpr fun e he => ?_
  cases e with
  | transmit d bytes => exact absurd rfl (h _ he d bytes)
  | _ => rfl

theorem bytesOn_between {l note : List NetEvent} (hl : Silent l) (hnote : Silent note) (c : ℕ)
    (sent : List NetEvent) : bytesOn c (l ++ sent ++ note) = bytesOn c sent := by
  rw [bytesOn_append, bytesOn_append, hl.bytesOn, hnote.bytesOn, List.append_nil, List.nil_append]

structure Sends (c : ℕ) (sent : List UInt8) (events : List NetEvent) : Prop where
  aside : Aside events
  here : bytesOn c events = sent
  elsewhere : ∀ d, d ≠ c → bytesOn d events = []
  closes : ∀ d, .closed d ∉ events

theorem transmit_spec (c : ℕ) (a : Attempt) (i : ℕ) (data : List UInt8) :
    ∃ sent, sent <+: data ∧ ((transmit c a i data).1 = true ↔ sent = data) ∧
      Sends c sent (transmit c a i data).2 := by
  fun_induction transmit c a i data with
  | case1 i => exact ⟨[], List.nil_prefix, by simp, by simp [Aside], rfl, fun _ _ => rfl, by simp⟩
  | case2 i data hdata hstop =>
    refine ⟨[], List.nil_prefix, by simp [Ne.symm hdata], ?_⟩
    split
    · exact ⟨by simp [Aside], rfl, fun _ _ => rfl, by simp⟩
    · exact ⟨by simp [Aside], rfl, fun _ _ => rfl, by simp⟩
  | case3 i data hdata hsome rest ih =>
    obtain ⟨sent, hsent, hall, hsends⟩ := ih
    simp only [rest]
    generalize (a.transfer i data.length).toNat = n at hsent hall hsends ⊢
    refine ⟨data.take n ++ sent, ?_, ?_, ?_, ?_, ?_, ?_⟩
    · have hwhole := (List.prefix_append_right_inj (data.take n)).mpr hsent
      rwa [List.take_append_drop] at hwhole
    · have hsplit : data.take n ++ sent = data.take n ++ data.drop n ↔ sent = data.drop n :=
        List.append_right_inj _
      rw [List.take_append_drop] at hsplit
      rw [hall, hsplit]
    · intro e he
      rcases List.mem_cons.mp he with rfl | he
      · simp
      · exact hsends.aside e he
    · have hfirst : bytesOn c [.transmit c (data.take n)] = data.take n := by simp [bytesOn]
      rw [← List.singleton_append, bytesOn_append, hsends.here, hfirst]
    · intro d hd
      have hfirst : bytesOn d [.transmit c (data.take n)] = [] := by simp [bytesOn, Ne.symm hd]
      rw [← List.singleton_append, bytesOn_append, hsends.elsewhere d hd, hfirst]
      rfl
    · intro d hd
      rcases List.mem_cons.mp hd with heq | hd
      · cases heq
      · exact hsends.closes d hd

/-- What stands before and behind the end of a call. -/
structure Ends (e : NetEvent) (events : List NetEvent) : Prop where
  split : ∃ before after, events = before ++ [e] ++ after ∧ Aside before ∧ Aside after
  silent : Silent events

theorem noteFailure_ends (s : GraphiteClient) (now : ℤ) :
    Ends (.failure now) (noteFailure s now).1 := by
  refine ⟨⟨(closeSocket s).1, if s.warned then [] else [.warnUnreachable], rfl, ?_, ?_⟩, ?_⟩
  · unfold closeSocket
    split <;> simp [Aside]
  · split <;> simp [Aside]
  · unfold noteFailure closeSocket
    split <;> split <;> simp [Silent]

theorem noteSuccess_ends (s : GraphiteClient) : Ends .success (noteSuccess s).1 := by
  refine ⟨⟨if s.warned then [.infoReachable] else [], [], (List.append_nil _).symm, ?_, ?_⟩, ?_⟩
  · split <;> simp [Aside]
  · simp [Aside]
  · unfold noteSuccess
    split <;> simp [Silent]

/-- What the call has done when it has a socket or has given up connecting. -/
inductive Opening (s : GraphiteClient) (a : Attempt) : List NetEvent → GraphiteClient → Prop
  | kept (c : ℕ) (hfd : s.fd = some c) : Opening s a [] s
  | refused (hfd : s.fd = none) (hdue : s.backingOff a.checked = false) (l : List NetEvent)
      (haside : Aside l) (hsilent : Silent l) (n : ℕ) (hn : s.sockets ≤ n)
      (hclosed : ∀ c, .closed c ∈ l → c < n) :
      Opening s a (.connect a.connecting :: l) { s with sockets := n }
  | opened (hfd : s.fd = none) (hdue : s.backingOff a.checked = false) :
      Opening s a [.connect a.connecting, .opened s.sockets]
        { s with fd := s.sockets, sockets := s.sockets + 1 }

theorem opening_spec (s : GraphiteClient) (a : Attempt) (hon : s.enabled = true)
    (hoff : ¬(s.fd = none ∧ s.backingOff a.checked = true)) :
    let o := if s.fd = none then connectSocket s a.connect a.connecting else ([], s)
    Opening s a o.1 o.2 := by
  cases hfd : s.fd with
  | some c => exact Opening.kept c hfd
  | none =>
    have hdue : s.backingOff a.checked = false := by simpa [hfd] using hoff
    simp only [connectSocket, hon, if_true]
    split
    · next h => cases h
    · split
      · exact Opening.refused hfd hdue [] (by simp [Aside]) (by simp [Silent]) _ le_rfl (by simp)
      · split
        · exact Opening.opened hfd hdue
        · exact Opening.refused hfd hdue [.opened s.sockets, .closed s.sockets] (by simp [Aside])
            (by simp [Silent]) _ (Nat.le_succ _) (by simp)

theorem send_cases (s : GraphiteClient) (a : Attempt) :
    ((s.enabled = false ∨ a.payload = []) ∧ send s a = ((true, []), s)) ∨
    (s.fd = none ∧ s.backingOff a.checked = true ∧ send s a = ((false, []), s)) ∨
    (∃ l s', Opening s a l s' ∧ s'.fd = none ∧ send s a =
      ((false, l ++ (noteFailure s' a.failed).1), (noteFailure s' a.failed).2)) ∨
    ∃ l s' c, Opening s a l s' ∧ s'.fd = some c ∧
      ((transmit c a 0 a.payload).1 = true ∧ send s a =
          ((true, l ++ (transmit c a 0 a.payload).2 ++ (noteSuccess s').1), (noteSuccess s').2) ∨
        (transmit c a 0 a.payload).1 = false ∧ send s a =
          ((false, l ++ (transmit c a 0 a.payload).2 ++ (noteFailure s' a.failed).1),
            (noteFailure s' a.failed).2)) := by
  unfold send
  split
  · next hidle =>
    rw [Bool.or_eq_true, Bool.not_eq_true', List.isEmpty_iff] at hidle
    exact Or.inl ⟨hidle, rfl⟩
  · next hidle =>
    refine Or.inr ?_
    rw [Bool.or_eq_true, Bool.not_eq_true', List.isEmpty_iff, not_or] at hidle
    obtain ⟨hon, hne⟩ := hidle
    split
    · next hoff => exact Or.inl ⟨hoff.1, hoff.2, rfl⟩
    · next hoff =>
      refine Or.inr ?_
      have hopening := opening_spec s a (by simpa using hon) hoff
      generalize (if s.fd = none then connectSocket s a.connect a.connecting else ([], s)) = o
        at hopening
      cases hfd : o.2.fd with
      | none => exact Or.inl ⟨o.1, o.2, hopening, hfd, by simp only [hfd]⟩
      | some c =>
        refine Or.inr ⟨o.1, o.2, c, hopening, hfd, ?_⟩
        cases hsent : (transmit c a 0 a.payload).1 with
        | true => exact Or.inl ⟨rfl, by simp [hfd, hsent]⟩
        | false => exact Or.inr ⟨rfl, by simp [hfd, hsent]⟩

/-- No connect before the deadline that the last failure has set. -/
def Due (past : List NetEvent) (e : NetEvent) : Prop :=
  ∀ now, e = .connect now → ∀ f, lastFailure past = some f →
    f + nanoseconds (delayAfter (inARow past)) ≤ now

structure Backoff (past : List NetEvent) (s : GraphiteClient) : Prop where
  delay : s.retryDelay = delayAfter (inARow past)
  deadline : 0 < inARow past →
    ∃ f, lastFailure past = some f ∧ s.nextAttempt = f + nanoseconds s.retryDelay
  /-- Without a socket and without a failure to serve there was none. -/
  unused : s.fd = none → inARow past = 0 → lastFailure past = none
  due : Throughout Due past

variable {past : List NetEvent} {s s' : GraphiteClient} {a : Attempt}

theorem Aside.due {l : List NetEvent} (h : Aside l) {P : List NetEvent → List NetEvent} :
    Throughout (fun xs c => Due (P xs) c) l :=
  Throughout.of_forall fun e he _ now heq => absurd heq ((h e he).1 now)

theorem Backoff.aside {l : List NetEvent} (h : Backoff past s) (hl : Aside l)
    (hdelay : s'.retryDelay = s.retryDelay) (hnext : s'.nextAttempt = s.nextAttempt)
    (hfd : s'.fd = none → s.fd = none) : Backoff (past ++ l) s' := by
  refine ⟨?_, ?_, ?_, h.due.append hl.due⟩
  · rw [hdelay, hl.inARow, h.delay]
  · rw [hl.inARow, hl.lastFailure, hdelay, hnext]
    exact h.deadline
  · rw [hl.inARow, hl.lastFailure]
    exact fun hnone => h.unused (hfd hnone)

theorem Backoff.connect {checked now : ℤ} (h : Backoff past s) (hfd : s.fd = none)
    (hdue : s.backingOff checked = false) (hnow : checked ≤ now) :
    Backoff (past ++ [.connect now]) s := by
  have hrow : inARow (past ++ [.connect now]) = inARow past := by
    rw [inARow, List.foldl_append]
    rfl
  have hlast : lastFailure (past ++ [.connect now]) = lastFailure past := by
    rw [lastFailure, List.foldl_append]
    rfl
  have hfirst : Due (past ++ []) (.connect now) := by
    intro t ht f hf
    cases ht
    rw [List.append_nil] at hf ⊢
    -- a failure that has not been served would have been noticed by the check
    have hpos : 0 < inARow past := by
      refine Nat.pos_of_ne_zero fun hzero => ?_
      rw [h.unused hfd hzero] at hf
      cases hf
    obtain ⟨f', hf', hnext⟩ := h.deadline hpos
    rw [hf] at hf'
    cases hf'
    have hdelay : 0 < s.retryDelay := h.delay ▸ (delayAfter_pos_iff _).mpr hpos
    have hover : s.nextAttempt ≤ checked := by
      simpa [backingOff, hdelay] using hdue
    rw [← h.delay]
    omega
  refine ⟨?_, ?_, ?_, h.due.append (Throughout.cons hfirst (by simp))⟩
  · rw [hrow, h.delay]
  · rw [hrow, hlast]
    exact h.deadline
  · rw [hrow, hlast]
    exact h.unused

theorem Ends.inARow {e : NetEvent} {l : List NetEvent} (h : Ends e l) (past : List NetEvent) :
    inARow (past ++ l) = streak (inARow past) e := by
  obtain ⟨before, after, rfl, hbefore, hafter⟩ := h.split
  rw [← List.append_assoc, hafter.inARow, ← List.append_assoc, GraphiteClient.inARow,
    List.foldl_append, ← GraphiteClient.inARow, hbefore.inARow]
  rfl

theorem Ends.lastFailure {e : NetEvent} {l : List NetEvent} (h : Ends e l)
    (past : List NetEvent) : lastFailure (past ++ l) = lastFailureStep (lastFailure past) e := by
  obtain ⟨before, after, rfl, hbefore, hafter⟩ := h.split
  rw [← List.append_assoc, hafter.lastFailure, ← List.append_assoc, GraphiteClient.lastFailure,
    List.foldl_append, ← GraphiteClient.lastFailure, hbefore.lastFailure]
  rfl

theorem Ends.due {e : NetEvent} {l : List NetEvent} (h : Ends e l)
    (he : ∀ now, e ≠ .connect now) {P : List NetEvent → List NetEvent} :
    Throughout (fun xs c => Due (P xs) c) l := by
  obtain ⟨before, after, rfl, hbefore, hafter⟩ := h.split
  refine Throughout.of_forall fun d hd _ now heq => ?_
  rcases List.mem_append.mp hd with hd | hd
  · rcases List.mem_append.mp hd with hd | hd
    · exact absurd heq ((hbefore d hd).1 now)
    · rw [List.mem_singleton] at hd
      exact absurd (hd.symm.trans heq) (he now)
  · exact absurd heq ((hafter d hd).1 now)

theorem Backoff.failed (h : Backoff past s) (now : ℤ) :
    Backoff (past ++ (noteFailure s now).1) (noteFailure s now).2 := by
  have hends := noteFailure_ends s now
  have hdelay : (noteFailure s now).2.retryDelay = delayAfter (inARow past + 1) := by
    rw [← delayAfter_succ, ← h.delay]
    rfl
  refine ⟨?_, ?_, ?_, h.due.append (hends.due (by simp))⟩
  · rw [hends.inARow, hdelay]
    rfl
  · rw [hends.lastFailure]
    exact fun _ => ⟨now, rfl, rfl⟩
  · rw [hends.inARow]
    exact fun _ hzero => absurd hzero (Nat.succ_ne_zero _)

theorem Backoff.succeeded (h : Backoff past s) (hfd : s.fd ≠ none) :
    Backoff (past ++ (noteSuccess s).1) (noteSuccess s).2 := by
  have hends := noteSuccess_ends s
  refine ⟨?_, ?_, ?_, h.due.append (hends.due (by simp))⟩
  · rw [hends.inARow]
    rfl
  · rw [hends.inARow]
    exact fun hpos => absurd hpos (lt_irrefl 0)
  · exact fun hnone => absurd hnone hfd

theorem Backoff.opening {l : List NetEvent} (h : Backoff past s) (ho : Opening s a l s') :
    Backoff (past ++ l) s' := by
  cases ho with
  | kept c hfd => rwa [List.append_nil]
  | refused hfd hdue l haside hsilent n hn hclosed =>
    have hconnect := h.connect hfd hdue a.checked_le
    rw [← List.singleton_append, ← List.append_assoc]
    exact hconnect.aside haside rfl rfl id
  | opened hfd hdue =>
    have hconnect := h.connect hfd hdue a.checked_le
    have haside : Aside [.opened s.sockets] := by simp [Aside]
    have hopened : Backoff (past ++ [.connect a.connecting] ++ [.opened s.sockets])
        { s with fd := s.sockets, sockets := s.sockets + 1 } :=
      hconnect.aside haside rfl rfl fun _ => hfd
    rwa [List.append_assoc] at hopened

/-- The socket is closed while a failure is served, whatever a call comes to. -/
structure Rested (past : List NetEvent) (s : GraphiteClient) : Prop extends Backoff past s where
  closed : 0 < s.retryDelay → s.fd = none

theorem noteFailure_fd (s : GraphiteClient) (now : ℤ) : (noteFailure s now).2.fd = none := by
  cases hfd : s.fd with
  | none => simp [noteFailure, closeSocket, hfd]
  | some c => simp [noteFailure, closeSocket, hfd]

theorem Rested.call (h : Rested past s) (a : Attempt) :
    Rested (past ++ (call s a).1) (call s a).2 := by
  rcases send_cases s a with ⟨_, heq⟩ | ⟨_, _, heq⟩ | ⟨l, s', ho, _, heq⟩ |
    ⟨l, s', c, ho, hfd, ⟨_, heq⟩ | ⟨_, heq⟩⟩
  · simpa only [GraphiteClient.call, heq, List.append_nil] using h
  · simpa only [GraphiteClient.call, heq, List.append_nil] using h
  · have hfailed := (h.opening ho).failed a.failed
    simp only [GraphiteClient.call, heq]
    exact ⟨by simpa only [List.append_assoc] using hfailed, fun _ => noteFailure_fd s' a.failed⟩
  · obtain ⟨sent, _, _, hsends⟩ := transmit_spec c a 0 a.payload
    have hsent := (h.opening ho).aside hsends.aside rfl rfl id
    have hdone := hsent.succeeded (by rw [hfd]; simp)
    simp only [GraphiteClient.call, heq]
    exact ⟨by simpa only [List.append_assoc] using hdone, fun hpos => absurd hpos (lt_irrefl 0)⟩
  · obtain ⟨sent, _, _, hsends⟩ := transmit_spec c a 0 a.payload
    have hsent := (h.opening ho).aside hsends.aside rfl rfl id
    have hfailed := hsent.failed a.failed
    simp only [GraphiteClient.call, heq]
    exact ⟨by simpa only [List.append_assoc] using hfailed, fun _ => noteFailure_fd s' a.failed⟩

end GraphiteClient
end CaenDaq
