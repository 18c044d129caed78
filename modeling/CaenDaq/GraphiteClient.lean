import CaenDaq.Transducer
import Mathlib.Data.Int.Order.Basic

/-!
# The Graphite client

`GraphiteClient::send` with the socket it keeps and the backoff it serves after a failure.
What the operating system answers, and what the clock shows at the places where it is read,
is the input of a call; what reaches the network is its output.
-/

namespace CaenDaq

/-- What the calls that `connectSocket` makes come to, in their order. -/
structure ConnectCalls where
  resolves : Bool
  creates : Bool
  unblocks : Bool
  connects : Bool
  inProgress : Bool := false
  /-- `waitWritable` returns 1. -/
  writable : Bool := false
  /-- `getsockopt` succeeds and reports no error. -/
  settled : Bool := false
  reblocks : Bool
  deriving DecidableEq, Repr

structure Attempt where
  payload : List UInt8
  /-- Steady clock, in nanoseconds, where `backingOff` reads it. -/
  checked : ℤ
  /-- When `connectSocket` is entered. -/
  connecting : ℤ
  /-- Where `noteFailure` reads the clock. -/
  failed : ℤ
  connect : ConnectCalls
  /-- The result of a `::send`, by its place in the loop and the number of bytes it is given. -/
  transfer : ℕ → ℕ → ℤ
  /-- What `lastErrorWasTimeout` says after it. -/
  timedOut : ℕ → Bool
  checked_le : checked ≤ connecting
  connecting_le : connecting ≤ failed
  /-- `::send` takes no more than it is given. -/
  transfer_le : ∀ i n, transfer i n ≤ n

inductive NetEvent
  /-- `connectSocket` is entered. -/
  | connect (now : ℤ)
  | opened (c : ℕ)
  | closed (c : ℕ)
  | transmit (c : ℕ) (bytes : List UInt8)
  | failure (now : ℤ)
  | success
  | warnUnreachable
  | warnTimedOut
  | infoReachable
  deriving DecidableEq, Repr

structure GraphiteClient where
  host : String
  port : ℤ
  fd : Option ℕ := none
  /-- Sockets created so far. A socket is known by this number. -/
  sockets : ℕ := 0
  nextAttempt : ℤ := 0
  /-- Milliseconds. -/
  retryDelay : ℕ := 0
  warned : Bool := false
  deriving DecidableEq, Repr

namespace GraphiteClient

def kRetryInitial : ℕ := 1000

def kRetryMax : ℕ := 30000

def nanoseconds (ms : ℕ) : ℤ := 1000000 * ms

def enabled (s : GraphiteClient) : Bool := s.host ≠ "" ∧ 0 < s.port

def backingOff (s : GraphiteClient) (now : ℤ) : Bool := 0 < s.retryDelay ∧ now < s.nextAttempt

def closeSocket (s : GraphiteClient) : List NetEvent × GraphiteClient :=
  match s.fd with
  | none => ([], s)
  | some c => ([.closed c], { s with fd := none })

def noteFailure (s : GraphiteClient) (now : ℤ) : List NetEvent × GraphiteClient :=
  let closing := closeSocket s
  let delay := if s.retryDelay = 0 then kRetryInitial else min (s.retryDelay * 2) kRetryMax
  (closing.1 ++ [.failure now] ++ if s.warned then [] else [.warnUnreachable],
    { closing.2 with retryDelay := delay, nextAttempt := now + nanoseconds delay, warned := true })

def noteSuccess (s : GraphiteClient) : List NetEvent × GraphiteClient :=
  ((if s.warned then [.infoReachable] else []) ++ [.success],
    { s with warned := false, retryDelay := 0, nextAttempt := 0 })

def ConnectCalls.connected (k : ConnectCalls) : Bool :=
  k.connects || (k.inProgress && k.writable && k.settled)

/-- Opens the socket. `connectSocket` returns true exactly where the socket is set. -/
def connectSocket (s : GraphiteClient) (k : ConnectCalls) (now : ℤ) :
    List NetEvent × GraphiteClient :=
  if !s.enabled then ([], s)
  else if !k.resolves || !k.creates then ([.connect now], s)
  else if k.unblocks && ConnectCalls.connected k && k.reblocks then
    ([.connect now, .opened s.sockets], { s with fd := s.sockets, sockets := s.sockets + 1 })
  else
    ([.connect now, .opened s.sockets, .closed s.sockets], { s with sockets := s.sockets + 1 })

def transmit (c : ℕ) (a : Attempt) (i : ℕ) (data : List UInt8) : Bool × List NetEvent :=
  if data = [] then (true, [])
  else if a.transfer i data.length ≤ 0 then
    (false, if a.transfer i data.length < 0 ∧ a.timedOut i then [.warnTimedOut] else [])
  else
    let rest := transmit c a (i + 1) (data.drop (a.transfer i data.length).toNat)
    (rest.1, .transmit c (data.take (a.transfer i data.length).toNat) :: rest.2)
termination_by data.length
decreasing_by
  rename_i hdata hsent
  have hlength := List.length_pos_of_ne_nil hdata
  rw [List.length_drop]
  omega

def send (s : GraphiteClient) (a : Attempt) : (Bool × List NetEvent) × GraphiteClient :=
  if !s.enabled || a.payload.isEmpty then ((true, []), s)
  else if s.fd = none ∧ s.backingOff a.checked then ((false, []), s)
  else
    let opening := if s.fd = none then connectSocket s a.connect a.connecting else ([], s)
    match opening.2.fd with
    | none =>
      let note := noteFailure opening.2 a.failed
      ((false, opening.1 ++ note.1), note.2)
    | some c =>
      let sending := transmit c a 0 a.payload
      let note := if sending.1 then noteSuccess opening.2 else noteFailure opening.2 a.failed
      ((sending.1, opening.1 ++ sending.2 ++ note.1), note.2)

def call (s : GraphiteClient) (a : Attempt) : List NetEvent × GraphiteClient :=
  ((send s a).1.2, (send s a).2)

end GraphiteClient
end CaenDaq
