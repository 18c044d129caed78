import CaenDaq.Backoff

/-!
# The batches that reach the Graphite server

Each socket carries whole batches and at the end at most a part of one: whatever goes wrong
with a batch closes the socket it was sent on. With the backoff it makes up what a sequence
of calls guarantees.
-/

namespace CaenDaq
namespace GraphiteClient

open Transducer CallOrder

variable {past : List NetEvent} {s s' : GraphiteClient} {a : Attempt}

/-- Whole batches in their order, and of one more at most a proper prefix. -/
def Batched (payloads : List (List UInt8)) (bytes part : List UInt8) : Prop :=
  ∃ wholes, bytes = wholes.flatten ++ part ∧
    ((part = [] ∧ wholes.Sublist payloads) ∨
      ∃ p, (wholes ++ [p]).Sublist payloads ∧ part <+: p ∧ part ≠ p)

theorem Batched.more {payloads : List (List UInt8)} {bytes part : List UInt8}
    (h : Batched payloads bytes part) (p : List UInt8) : Batched (payloads ++ [p]) bytes part := by
  obtain ⟨wholes, hbytes, hpart⟩ := h
  have hkeep : ∀ {l : List (List UInt8)}, l.Sublist payloads → l.Sublist (payloads ++ [p]) :=
    fun hl => hl.trans (List.sublist_append_left _ _)
  rcases hpart with ⟨hnil, hsub⟩ | ⟨q, hsub, hq⟩
  · exact ⟨wholes, hbytes, Or.inl ⟨hnil, hkeep hsub⟩⟩
  · exact ⟨wholes, hbytes, Or.inr ⟨q, hkeep hsub, hq⟩⟩

theorem Batched.next {payloads : List (List UInt8)} {bytes sent p : List UInt8}
    (h : Batched payloads bytes []) (hsent : sent <+: p) :
    Batched (payloads ++ [p]) (bytes ++ sent) (if sent = p then [] else sent) := by
  obtain ⟨wholes, rfl, hpart⟩ := h
  have hsub : wholes.Sublist payloads := by
    rcases hpart with ⟨_, hsub⟩ | ⟨q, hsub, _⟩
    · exact hsub
    · exact (List.sublist_append_left _ _).trans hsub
  have hnext : (wholes ++ [p]).Sublist (payloads ++ [p]) := hsub.append (List.Sublist.refl _)
  split
  · next hall =>
    refine ⟨wholes ++ [p], ?_, Or.inl ⟨rfl, hnext⟩⟩
    rw [List.flatten_concat, hall, List.append_nil, List.append_nil]
  · next hcut => exact ⟨wholes, by rw [List.append_nil], Or.inr ⟨p, hnext, hsent, hcut⟩⟩

def Dead (s : GraphiteClient) (c : ℕ) : Prop := c < s.sockets ∧ s.fd ≠ some c

structure Streams (payloads : List (List UInt8)) (past : List NetEvent) (s : GraphiteClient) :
    Prop where
  fresh : ∀ c, s.sockets ≤ c → bytesOn c past = []
  known : ∀ c, s.fd = some c → c < s.sockets
  batched : ∀ c, ∃ part, Batched payloads (bytesOn c past) part ∧ (part ≠ [] → Dead s c)
  closed : ∀ c, .closed c ∈ past → Dead s c

variable {payloads : List (List UInt8)}

theorem Opening.silent {l : List NetEvent} (ho : Opening s a l s') : Silent l := by
  cases ho with
  | kept c hfd => simp [Silent]
  | refused hfd hdue l haside hsilent n hn hclosed =>
    intro e he
    rcases List.mem_cons.mp he with rfl | he
    · simp
    · exact hsilent e he
  | opened hfd hdue => simp [Silent]

theorem Opening.dead {l : List NetEvent} (ho : Opening s a l s') {c : ℕ} (h : Dead s c) :
    Dead s' c := by
  obtain ⟨hc, hne⟩ := h
  cases ho with
  | kept c hfd => exact ⟨hc, hne⟩
  | refused hfd hdue l haside hsilent n hn hclosed => exact ⟨hc.trans_le hn, hne⟩
  | opened hfd hdue =>
    refine ⟨Nat.lt_succ_of_lt hc, fun heq => ?_⟩
    exact hc.ne' (Option.some.inj heq)

theorem Opening.closes {l : List NetEvent} (ho : Opening s a l s') {c : ℕ}
    (h : .closed c ∈ l) : Dead s' c := by
  cases ho with
  | kept c hfd => exact absurd h List.not_mem_nil
  | refused hfd hdue l haside hsilent n hn hclosed =>
    refine ⟨hclosed c (by simpa using h), ?_⟩
    rw [hfd]
    simp
  | opened hfd hdue => simp at h

theorem Opening.sockets {l : List NetEvent} (ho : Opening s a l s') : s.sockets ≤ s'.sockets := by
  cases ho with
  | kept c hfd => exact le_rfl
  | refused hfd hdue l haside hsilent n hn hclosed => exact hn
  | opened hfd hdue => exact Nat.le_succ _

theorem Streams.opening {l : List NetEvent} (h : Streams payloads past s)
    (ho : Opening s a l s') : Streams payloads (past ++ l) s' := by
  have hbytes : ∀ c, bytesOn c (past ++ l) = bytesOn c past := by
    intro c
    rw [bytesOn_append, ho.silent.bytesOn, List.append_nil]
  refine ⟨?_, ?_, ?_, ?_⟩
  · intro c hc
    rw [hbytes]
    exact h.fresh c (ho.sockets.trans hc)
  · intro c hc
    cases ho with
    | kept d hfd => exact h.known c hc
    | refused hfd hdue l haside hsilent n hn hclosed => exact (h.known c hc).trans_le hn
    | opened hfd hdue =>
      obtain rfl := Option.some.inj hc
      exact Nat.lt_succ_self _
  · intro c
    rw [hbytes]
    obtain ⟨part, hpart, hdead⟩ := h.batched c
    exact ⟨part, hpart, fun hne => ho.dead (hdead hne)⟩
  · intro c hc
    rcases List.mem_append.mp hc with hc | hc
    · exact ho.dead (h.closed c hc)
    · exact ho.closes hc

theorem Streams.more (h : Streams payloads past s) (p : List UInt8) :
    Streams (payloads ++ [p]) past s := by
  refine ⟨h.fresh, h.known, fun c => ?_, h.closed⟩
  obtain ⟨part, hpart, hdead⟩ := h.batched c
  exact ⟨part, hpart.more p, hdead⟩

theorem Streams.silent {l : List NetEvent} (h : Streams payloads past s) (hsilent : Silent l)
    (hclosed : ∀ c, .closed c ∉ l) (hfd : s'.fd = s.fd) (hsockets : s'.sockets = s.sockets) :
    Streams payloads (past ++ l) s' := by
  have hbytes : ∀ c, bytesOn c (past ++ l) = bytesOn c past := by
    intro c
    rw [bytesOn_append, hsilent.bytesOn, List.append_nil]
  have hdead : ∀ c, Dead s' c ↔ Dead s c := fun c => by rw [Dead, Dead, hfd, hsockets]
  refine ⟨?_, ?_, ?_, ?_⟩
  · intro c hc
    rw [hbytes]
    exact h.fresh c (hsockets ▸ hc)
  · rw [hfd, hsockets]
    exact h.known
  · intro c
    rw [hbytes, hdead]
    exact h.batched c
  · intro c hc
    rcases List.mem_append.mp hc with hc | hc
    · exact (hdead c).mpr (h.closed c hc)
    · exact absurd hc (hclosed c)

theorem Streams.sent {c : ℕ} {sent p : List UInt8} {l note : List NetEvent}
    (h : Streams payloads past s) (hfd : s.fd = some c) (hstart : sent <+: p)
    (hsends : Sends c sent l) (hsilent : Silent note) (hsockets : s'.sockets = s.sockets)
    (hend : (sent = p ∧ s'.fd = s.fd ∧ ∀ d, .closed d ∉ note) ∨
      (s'.fd = none ∧ ∀ d, .closed d ∈ note → d = c)) :
    Streams (payloads ++ [p]) (past ++ (l ++ note)) s' := by
  have hknown : c < s.sockets := h.known c hfd
  have hbytes : ∀ d, bytesOn d (past ++ (l ++ note)) = bytesOn d past ++ bytesOn d l := by
    intro d
    rw [bytesOn_append, bytesOn_append, hsilent.bytesOn, List.append_nil]
  have hfd' : ∀ d, s'.fd = some d → d = c := by
    intro d hd
    rcases hend with ⟨_, hsame, _⟩ | ⟨hnone, _⟩
    · rw [hsame, hfd] at hd
      exact (Option.some.inj hd).symm
    · rw [hnone] at hd
      cases hd
  have hdead : ∀ d, Dead s d → Dead s' d := by
    intro d hd
    refine ⟨hsockets ▸ hd.1, fun heq => hd.2 ?_⟩
    rw [hfd' d heq, hfd]
  refine ⟨?_, ?_, ?_, ?_⟩
  · intro d hd
    rw [hsockets] at hd
    rw [hbytes, h.fresh d hd, hsends.elsewhere d (by omega), List.append_nil]
  · intro d hd
    rw [hfd' d hd, hsockets]
    exact hknown
  · intro d
    rw [hbytes]
    obtain ⟨part, hpart, hlost⟩ := h.batched d
    by_cases hd : d = c
    · subst hd
      have hnil : part = [] := by
        by_contra hne
        exact (hlost hne).2 hfd
      rw [hnil] at hpart
      rw [hsends.here]
      refine ⟨_, hpart.next hstart, fun hne => ?_⟩
      rcases hend with ⟨hall, _⟩ | ⟨hnone, _⟩
      · exact absurd (if_pos hall) hne
      · refine ⟨hsockets ▸ hknown, ?_⟩
        rw [hnone]
        simp
    · rw [hsends.elsewhere d hd, List.append_nil]
      exact ⟨part, hpart.more p, fun hne => hdead d (hlost hne)⟩
  · intro d hd
    rcases List.mem_append.mp hd with hd | hd
    · exact hdead d (h.closed d hd)
    · rcases List.mem_append.mp hd with hd | hd
      · exact absurd hd (hsends.closes d)
      · rcases hend with ⟨_, _, hnone⟩ | ⟨hnone, hclosed⟩
        · exact absurd hd (hnone d)
        · refine ⟨?_, ?_⟩
          · rw [hclosed d hd, hsockets]
            exact hknown
          · rw [hnone]
            simp

theorem closeSocket_closes {s : GraphiteClient} {c : ℕ} (h : .closed c ∈ (closeSocket s).1) :
    s.fd = some c := by
  unfold closeSocket at h
  cases hfd : s.fd with
  | none =>
    rw [hfd] at h
    exact absurd h List.not_mem_nil
  | some d =>
    rw [hfd] at h
    cases List.mem_singleton.mp h
    rfl

theorem noteFailure_closes (s : GraphiteClient) (now : ℤ) (c : ℕ)
    (h : .closed c ∈ (noteFailure s now).1) : s.fd = some c := by
  rcases List.mem_append.mp h with h | h
  · rcases List.mem_append.mp h with h | h
    · exact closeSocket_closes h
    · cases List.mem_singleton.mp h
  · split at h
    · exact absurd h List.not_mem_nil
    · cases List.mem_singleton.mp h

theorem noteFailure_sockets (s : GraphiteClient) (now : ℤ) :
    (noteFailure s now).2.sockets = s.sockets := by
  unfold noteFailure closeSocket
  split <;> rfl

theorem noteSuccess_closes (s : GraphiteClient) (c : ℕ) : .closed c ∉ (noteSuccess s).1 := by
  unfold noteSuccess
  split <;> simp

theorem Streams.call (h : Streams payloads past s) (a : Attempt) :
    Streams (payloads ++ [a.payload]) (past ++ (call s a).1) (call s a).2 := by
  rcases send_cases s a with ⟨_, heq⟩ | ⟨_, _, heq⟩ | ⟨l, s', ho, hfd, heq⟩ |
    ⟨l, s', c, ho, hfd, ⟨hall, heq⟩ | ⟨_, heq⟩⟩
  · simpa only [GraphiteClient.call, heq, List.append_nil] using h.more a.payload
  · simpa only [GraphiteClient.call, heq, List.append_nil] using h.more a.payload
  · have hnote := ((h.more a.payload).opening ho).silent (noteFailure_ends s' a.failed).silent
      (fun c hc => by simpa [hfd] using noteFailure_closes s' a.failed c hc)
      ((noteFailure_fd s' a.failed).trans hfd.symm) (noteFailure_sockets s' a.failed)
    simp only [GraphiteClient.call, heq]
    rwa [← List.append_assoc]
  · obtain ⟨sent, hstart, hwhole, hsends⟩ := transmit_spec c a 0 a.payload
    have hsent := (h.opening ho).sent hfd hstart hsends (noteSuccess_ends s').silent
      (show (noteSuccess s').2.sockets = s'.sockets from rfl)
      (Or.inl ⟨hwhole.mp hall, rfl, noteSuccess_closes s'⟩)
    simp only [GraphiteClient.call, heq]
    rwa [List.append_assoc, ← List.append_assoc]
  · obtain ⟨sent, hstart, _, hsends⟩ := transmit_spec c a 0 a.payload
    have hsent := (h.opening ho).sent hfd hstart hsends (noteFailure_ends s' a.failed).silent
      (noteFailure_sockets s' a.failed) (Or.inr ⟨noteFailure_fd s' a.failed, fun d hd => by
        have hclosed := noteFailure_closes s' a.failed d hd
        rw [hfd] at hclosed
        exact (Option.some.inj hclosed).symm⟩)
    simp only [GraphiteClient.call, heq]
    rwa [List.append_assoc, ← List.append_assoc]

theorem Dead.call {c : ℕ} (h : Dead s c) (a : Attempt) :
    bytesOn c (call s a).1 = [] ∧ Dead (call s a).2 c := by
  rcases send_cases s a with ⟨_, heq⟩ | ⟨_, _, heq⟩ | ⟨l, s', ho, hfd, heq⟩ |
    ⟨l, s', d, ho, hfd, ⟨_, heq⟩ | ⟨_, heq⟩⟩
  · simp only [GraphiteClient.call, heq]
    exact ⟨rfl, h⟩
  · simp only [GraphiteClient.call, heq]
    exact ⟨rfl, h⟩
  · simp only [GraphiteClient.call, heq]
    refine ⟨(ho.silent.append (noteFailure_ends s' a.failed).silent).bytesOn c, ?_, ?_⟩
    · rw [noteFailure_sockets]
      exact (ho.dead h).1
    · rw [noteFailure_fd]
      simp
  · obtain ⟨sent, _, _, hsends⟩ := transmit_spec d a 0 a.payload
    obtain ⟨hc, hne⟩ := ho.dead h
    have hother : c ≠ d := fun heq => hne (heq ▸ hfd)
    simp only [GraphiteClient.call, heq]
    refine ⟨?_, hc, hne⟩
    rw [bytesOn_between ho.silent (noteSuccess_ends s').silent, hsends.elsewhere c hother]
  · obtain ⟨sent, _, _, hsends⟩ := transmit_spec d a 0 a.payload
    obtain ⟨hc, hne⟩ := ho.dead h
    have hother : c ≠ d := fun heq => hne (heq ▸ hfd)
    simp only [GraphiteClient.call, heq]
    refine ⟨?_, ?_, ?_⟩
    · rw [bytesOn_between ho.silent (noteFailure_ends s' a.failed).silent,
        hsends.elsewhere c hother]
    · rw [noteFailure_sockets]
      exact hc
    · rw [noteFailure_fd]
      simp

theorem Dead.run {c : ℕ} (h : Dead s c) (later : List Attempt) :
    bytesOn c (Transducer.run GraphiteClient.call s later).1 = [] := by
  have hrun := Transducer.run_history
    (fun (_ : List Attempt) past s => bytesOn c past = [] ∧ Dead s c)
    (fun _ past s a (_ : a ∈ later) hs => by
      obtain ⟨hnone, hdead⟩ := hs.2.call a
      refine ⟨?_, hdead⟩
      rw [bytesOn_append, hs.1, hnone]
      rfl) [] [] s ⟨rfl, h⟩
  exact hrun.1

theorem rested_init (host : String) (port : ℤ) : Rested [] { host, port } := by
  refine ⟨⟨rfl, fun hpos => absurd hpos (lt_irrefl 0), fun _ _ => rfl, ?_⟩, fun _ => rfl⟩
  exact Throughout.of_forall fun e he => absurd he List.not_mem_nil

theorem streams_init (host : String) (port : ℤ) : Streams [] [] { host, port } := by
  refine ⟨fun _ _ => rfl, fun c hc => ?_, fun c => ?_, fun c hc => absurd hc List.not_mem_nil⟩
  · cases hc
  · exact ⟨[], ⟨[], rfl, Or.inl ⟨rfl, List.nil_sublist _⟩⟩, fun hne => absurd rfl hne⟩

theorem run_keeps (host : String) (port : ℤ) (calls : List Attempt) :
    let r := run call { host, port } calls
    Rested r.1 r.2 ∧ Streams (calls.map Attempt.payload) r.1 r.2 := by
  have hrun := run_history
    (fun (done : List Attempt) past s => Rested past s ∧ Streams (done.map Attempt.payload) past s)
    (fun done past s a (_ : a ∈ calls) hs => by
      refine ⟨hs.1.call a, ?_⟩
      rw [List.map_append]
      exact hs.2.call a) [] [] { host, port } ⟨rested_init host port, streams_init host port⟩
  exact hrun

theorem Opening.enabled {l : List NetEvent} (ho : Opening s a l s') : s'.enabled = s.enabled := by
  cases ho with
  | kept c hfd => rfl
  | refused hfd hdue l haside hsilent n hn hclosed => rfl
  | opened hfd hdue => rfl

theorem noteFailure_enabled (s : GraphiteClient) (now : ℤ) :
    (noteFailure s now).2.enabled = s.enabled := by
  unfold noteFailure closeSocket
  split <;> rfl

theorem call_enabled (s : GraphiteClient) (a : Attempt) : (call s a).2.enabled = s.enabled := by
  rcases send_cases s a with ⟨_, heq⟩ | ⟨_, _, heq⟩ | ⟨l, s', ho, hfd, heq⟩ |
    ⟨l, s', c, ho, hfd, ⟨_, heq⟩ | ⟨_, heq⟩⟩
  · rw [call, heq]
  · rw [call, heq]
  · rw [call, heq]
    exact (noteFailure_enabled s' a.failed).trans ho.enabled
  · rw [call, heq]
    exact ho.enabled
  · rw [call, heq]
    exact (noteFailure_enabled s' a.failed).trans ho.enabled

/-- A call that succeeds sends the whole batch over one socket and clears the backoff, and
only such a call sends the whole batch. -/
theorem send_result (hon : s.enabled = true) (hne : a.payload ≠ []) :
    let t := send s a
    (t.1.1 = true → t.2.retryDelay = 0 ∧ ∀ now, t.2.backingOff now = false) ∧
      (t.1.1 = true ↔ ∃ c, bytesOn c t.1.2 = a.payload ∧ ∀ d, d ≠ c → bytesOn d t.1.2 = []) := by
  have hnothing : ∀ l, Silent l →
      ¬∃ c, bytesOn c l = a.payload ∧ ∀ d, d ≠ c → bytesOn d l = [] := by
    rintro l hl ⟨c, hc, _⟩
    exact hne (hc.symm.trans (hl.bytesOn c))
  rcases send_cases s a with ⟨hidle, _⟩ | ⟨_, _, heq⟩ | ⟨l, s', ho, hfd, heq⟩ |
    ⟨l, s', c, ho, hfd, hcase⟩
  · rcases hidle with hoff | hempty
    · rw [hon] at hoff
      cases hoff
    · exact absurd hempty hne
  · rw [heq]
    exact ⟨fun hfalse => absurd hfalse Bool.false_ne_true,
      iff_of_false Bool.false_ne_true (hnothing [] (by simp [Silent]))⟩
  · rw [heq]
    exact ⟨fun hfalse => absurd hfalse Bool.false_ne_true,
      iff_of_false Bool.false_ne_true
        (hnothing _ (ho.silent.append (noteFailure_ends s' a.failed).silent))⟩
  · obtain ⟨sent, hstart, hwhole, hsends⟩ := transmit_spec c a 0 a.payload
    rcases hcase with ⟨hall, heq⟩ | ⟨hcut, heq⟩
    · rw [heq]
      refine ⟨fun _ => ⟨rfl, fun now => rfl⟩, iff_of_true rfl ⟨c, ?_, fun d hd => ?_⟩⟩
      · rw [bytesOn_between ho.silent (noteSuccess_ends s').silent, hsends.here, hwhole.mp hall]
      · rw [bytesOn_between ho.silent (noteSuccess_ends s').silent, hsends.elsewhere d hd]
    · rw [heq]
      refine ⟨fun hfalse => absurd hfalse Bool.false_ne_true,
        iff_of_false Bool.false_ne_true ?_⟩
      rintro ⟨d, hd, _⟩
      rw [bytesOn_between ho.silent (noteFailure_ends s' a.failed).silent] at hd
      by_cases hdc : d = c
      · rw [hdc, hsends.here, ← hwhole, hcut] at hd
        cases hd
      · rw [hsends.elsewhere d hdc] at hd
        exact hne hd.symm

/-- The client backs off and never splices batches: for any calls, whatever the clock shows
and the operating system answers. -/
theorem batches_backed_off (host : String) (port : ℤ)
    (hon : enabled { host, port } = true) (calls : List Attempt) :
    let r := run call { host, port } calls
    (0 < r.2.retryDelay → r.2.fd = none) ∧
    r.2.retryDelay = delayAfter (inARow r.1) ∧
    (∀ past now rest, r.1 = past ++ .connect now :: rest → ∀ f, lastFailure past = some f →
      f + nanoseconds (delayAfter (inARow past)) ≤ now) ∧
    (∀ a, a.payload ≠ [] →
      let t := send r.2 a
      (t.1.1 = true → t.2.retryDelay = 0 ∧ ∀ now, t.2.backingOff now = false) ∧
        (t.1.1 = true ↔
          ∃ c, bytesOn c t.1.2 = a.payload ∧ ∀ d, d ≠ c → bytesOn d t.1.2 = [])) ∧
    ∀ c, ∃ part, Batched (calls.map Attempt.payload) (bytesOn c r.1) part ∧
      (part ≠ [] ∨ .closed c ∈ r.1 → ∀ later, bytesOn c (run call r.2 later).1 = []) := by
  intro r
  obtain ⟨hrested, hstreams⟩ := run_keeps host port calls
  have hstill : r.2.enabled = true := run_invariant (fun s => s.enabled = true)
    (fun s a _ hs => (call_enabled s a).trans hs) _ hon
  refine ⟨hrested.closed, hrested.delay, ?_, fun a hne => send_result hstill hne, fun c => ?_⟩
  · intro past now rest hsplit
    exact hrested.due past (.connect now) rest hsplit now rfl
  · obtain ⟨part, hpart, hdead⟩ := hstreams.batched c
    refine ⟨part, hpart, fun hend later => ?_⟩
    rcases hend with hne | hclosed
    · exact (hdead hne).run later
    · exact (hstreams.closed c hclosed).run later

def attempt (payload : List UInt8) (seconds : ℕ) (transfer : ℕ → ℕ → ℤ)
    (transfer_le : ∀ i n, transfer i n ≤ n) : Attempt where
  payload := payload
  checked := 1000000000 * seconds
  connecting := 1000000000 * seconds
  failed := 1000000000 * seconds
  connect := { resolves := true, creates := true, unblocks := true, connects := true
               reblocks := true }
  transfer := transfer
  timedOut := fun _ => false
  checked_le := le_refl _
  connecting_le := le_refl _
  transfer_le := transfer_le

/-- A batch that is sent in two pieces, one that breaks off after its first byte, one that the
backoff keeps back, and one over a new connection. -/
def interruptedCalls : List Attempt :=
  [attempt [65, 66, 67] 1 (fun i n => if i = 0 then min 2 n else n) (by intro i n; split <;> omega),
    attempt [68, 69] 2 (fun i n => if i = 0 then min 1 n else -1) (by intro i n; split <;> omega),
    attempt [70] 2 (fun _ n => n) fun _ _ => le_refl _,
    attempt [71, 72] 3 (fun _ n => n) fun _ _ => le_refl _]

theorem batches_backed_off_interrupted :
    let r := run call { host := "carbon", port := 2003 } interruptedCalls
    bytesOn 0 r.1 = [65, 66, 67, 68] ∧ bytesOn 1 r.1 = [71, 72] ∧ r.2.retryDelay = 0 ∧
      (∃ part, Batched (interruptedCalls.map Attempt.payload) (bytesOn 0 r.1) part) ∧
      ∀ later, bytesOn 0 (run call r.2 later).1 = [] := by
  intro r
  have hzero : bytesOn 0 r.1 = [65, 66, 67, 68] := by decide +kernel
  have hone : bytesOn 1 r.1 = [71, 72] := by decide +kernel
  have hclosed : NetEvent.closed 0 ∈ r.1 := by decide +kernel
  have hrow : inARow r.1 = 0 := by decide +kernel
  obtain ⟨_, hdelay, _, _, hstreams⟩ := batches_backed_off "carbon" 2003 (by decide) interruptedCalls
  obtain ⟨part, hpart, hdead⟩ := hstreams 0
  refine ⟨hzero, hone, ?_, ⟨part, hpart⟩, hdead (.inr hclosed)⟩
  rw [hdelay, hrow]
  rfl

end GraphiteClient
end CaenDaq
