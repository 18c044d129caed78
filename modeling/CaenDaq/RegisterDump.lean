import CaenDaq.CaenDigitizer
import CaenDaq.JsonCpp
import Mathlib.Data.List.Forall2

/-!
# Register dumps

`CaenDigitizer::applyRegisterDump` over any document, with any jsoncpp that behaves as
documented: an access to a value of the wrong kind raises an exception. The writes made
before an exception stay made.
-/

namespace CaenDaq

def isSpace (c : Char) : Bool := c = ' ' || (9 ≤ c.toNat && c.toNat ≤ 13)

def hexDigit (c : Char) : Option ℕ :=
  if '0' ≤ c ∧ c ≤ '9' then some (c.toNat - 48)
  else if 'a' ≤ c ∧ c ≤ 'f' then some (c.toNat - 87)
  else if 'A' ≤ c ∧ c ≤ 'F' then some (c.toNat - 55)
  else none

def hexDigits : List Char → List ℕ
  | [] => []
  | c :: cs =>
    match hexDigit c with
    | some d => d :: hexDigits cs
    | none => []

/-- The text behind `0x`, if a digit follows there. -/
def skipHexMark : List Char → List Char
  | '0' :: x :: c :: cs =>
    if (x = 'x' ∨ x = 'X') ∧ (hexDigit c).isSome then c :: cs else '0' :: x :: c :: cs
  | s => s

/-- `strtoul` in base 16, where `unsigned long` has 64 bits. -/
def strtoul16 (s : List Char) : ℕ :=
  let s := s.dropWhile isSpace
  let unsigned := if s.head? = some '-' ∨ s.head? = some '+' then s.tail else s
  let n := (hexDigits (skipHexMark unsigned)).foldl (fun n d => 16 * n + d) 0
  if 2 ^ 64 ≤ n then 2 ^ 64 - 1
  else if s.head? = some '-' then (2 ^ 64 - n) % 2 ^ 64
  else n

def parseHex (text : String) : Word := BitVec.ofNat 32 (strtoul16 text.toList)

structure DumpTally where
  writes : List (Word × Word) := []
  written : ℕ := 0
  failed : ℕ := 0
  deriving DecidableEq, Repr

namespace RegisterDump

variable {Value : Type}

/-- The write went wrong if `fails` says so of its place. -/
def writeRegister (fails : ℕ → Bool) (t : DumpTally) (w : Word × Word) : DumpTally :=
  if fails t.writes.length then { t with writes := t.writes ++ [w], failed := t.failed + 1 }
  else { t with writes := t.writes ++ [w], written := t.written + 1 }

section Dump

variable (json : JsonCpp Value) (fails : ℕ → Bool)

def readEntry (r : Value) : Access (Option (Word × Word)) := do
  if !(← json.isMember r "address") then return none
  if !(← json.isMember r "value") then return none
  let address ← json.asString (← json.get r "address")
  let value ← json.asString (← json.get r "value")
  return some (parseHex address, parseHex value)

def applyEntries (regs : Value) : List String → DumpTally → DumpTally × Access Unit
  | [], t => (t, .ok ())
  | key :: keys, t =>
    match json.get regs key >>= readEntry json with
    | .error e => (t, .error e)
    | .ok none => applyEntries regs keys t
    | .ok (some w) => applyEntries regs keys (writeRegister fails t w)

/-- The document, none if the file cannot be opened or parsed. -/
def applyRegisterDump (document : Option Value) : DumpTally × Access Bool :=
  match document with
  | none => ({}, .ok false)
  | some root =>
    match json.isMember root "registers" with
    | .error e => ({}, .error e)
    | .ok false => ({}, .ok false)
    | .ok true =>
      match json.get root "registers" with
      | .error e => ({}, .error e)
      | .ok regs =>
        match json.getMemberNames regs with
        | .error e => ({}, .error e)
        | .ok names =>
          let r := applyEntries json fails regs names {}
          (r.1, r.2.map fun _ => true)

end Dump

section Documents

variable (shape : Value → Shape Value) (nullIsObject : Bool)

def registersOf (root : Value) : Option (OrderedMap String Value) :=
  match shape root with
  | .object ms =>
    match (ms.lookup "registers").map shape with
    | some (.object regs) => some regs
    | _ => none
  | _ => none

def fieldsIn (ms : OrderedMap String Value) : Option (Value × Value) :=
  match ms.lookup "address", ms.lookup "value" with
  | some address, some value => some (address, value)
  | _, _ => none

def fieldsOf (e : Value) : Option (Value × Value) :=
  match shape e with
  | .object ms => fieldsIn ms
  | _ => none

/-- The write of an entry, with both fields read as hexadecimal numbers. -/
def Written (f : Value × Value) (w : Word × Word) : Prop :=
  ∃ address value, (shape f.1).text = some address ∧ (shape f.2).text = some value ∧
    w = (parseHex address, parseHex value)

/-- No exception, false and nothing written without a `registers` object, otherwise true and
one write for each entry with both fields, in key order. -/
def Exact (root : Value) (r : DumpTally × Access Bool) : Prop :=
  ∃ handled, r.2 = .ok handled ∧
    (registersOf shape root = none → handled = false ∧ r.1.writes = []) ∧
    ∀ regs, registersOf shape root = some regs →
      handled = true ∧
        List.Forall₂ (Written shape) (regs.values.filterMap (fieldsOf shape)) r.1.writes

def Keyed (v : Value) : Prop := ∃ ms, (shape v).members nullIsObject = some ms

def Scalar (v : Value) : Prop := ∃ t, (shape v).text = some t

/-- An entry that can be read, or passed over. -/
def EntryKinded (e : Value) : Prop :=
  Keyed shape nullIsObject e ∧
    ∀ f, fieldsOf shape e = some f → Scalar shape f.1 ∧ Scalar shape f.2

/-- Every value has the kind that the dump format has in its place. -/
def WellKinded (root : Value) : Prop :=
  Keyed shape nullIsObject root ∧
    ∀ ms, shape root = .object ms → ∀ r, ms.lookup "registers" = some r →
      ∃ regs, shape r = .object regs ∧ ∀ e ∈ regs.values, EntryKinded shape nullIsObject e

end Documents

variable {shape : Value → Shape Value} {nullIsObject : Bool} {json : JsonCpp Value}

theorem not_keyed {v : Value} (h : ¬Keyed shape nullIsObject v) :
    (shape v).members nullIsObject = none :=
  Option.eq_none_iff_forall_ne_some.mpr fun ms hms => h ⟨ms, hms⟩

theorem not_scalar {v : Value} (h : ¬Scalar shape v) : (shape v).text = none :=
  Option.eq_none_iff_forall_ne_some.mpr fun t ht => h ⟨t, ht⟩

theorem members_object {v : Value} {ms : OrderedMap String Value} (h : shape v = .object ms) :
    (shape v).members nullIsObject = some ms := by
  rw [h]
  rfl

/-- Null counts as an object without members, everything else as what it is. -/
theorem members_cases {v : Value} {ms : OrderedMap String Value}
    (h : (shape v).members nullIsObject = some ms) :
    shape v = .object ms ∨ (shape v = .null ∧ ms = .empty) := by
  cases hv : shape v with
  | object regs =>
    rw [hv] at h
    exact Or.inl (congrArg Shape.object (Option.some.inj h))
  | null =>
    rw [hv, Shape.members] at h
    split at h
    · exact Or.inr ⟨rfl, (Option.some.inj h).symm⟩
    · cases h
  | scalar t =>
    rw [hv] at h
    cases h
  | array =>
    rw [hv] at h
    cases h

theorem fieldsOf_eq {e : Value} {ms : OrderedMap String Value}
    (h : (shape e).members nullIsObject = some ms) : fieldsOf shape e = fieldsIn ms := by
  unfold fieldsOf
  rcases members_cases h with hobject | ⟨hnull, rfl⟩
  · rw [hobject]
  · rw [hnull]
    rfl

theorem readEntry_members (hdoc : json.Documented shape nullIsObject) {e : Value}
    {ms : OrderedMap String Value} (h : (shape e).members nullIsObject = some ms) :
    readEntry json e =
      match fieldsOf shape e with
      | none => .ok none
      | some f => do
        let address ← json.asString f.1
        let value ← json.asString f.2
        return some (parseHex address, parseHex value) := by
  rw [fieldsOf_eq h]
  unfold readEntry fieldsIn
  rw [hdoc.isMember h, hdoc.isMember h]
  cases haddress : ms.lookup "address" with
  | none => rfl
  | some address =>
    cases hvalue : ms.lookup "value" with
    | none => rfl
    | some value =>
      rw [hdoc.get h haddress, hdoc.get h hvalue]
      rfl

theorem readEntry_ok (hdoc : json.Documented shape nullIsObject) {e : Value}
    (h : EntryKinded shape nullIsObject e) :
    (fieldsOf shape e = none ∧ readEntry json e = .ok none) ∨
      ∃ f w, fieldsOf shape e = some f ∧ Written shape f w ∧ readEntry json e = .ok (some w) := by
  obtain ⟨⟨ms, hms⟩, hscalar⟩ := h
  have hread := readEntry_members hdoc hms
  cases hf : fieldsOf shape e with
  | none => exact Or.inl ⟨rfl, by rw [hread, hf]⟩
  | some f =>
    obtain ⟨⟨address, ha⟩, ⟨value, hv⟩⟩ := hscalar f hf
    refine Or.inr ⟨f, _, rfl, ⟨address, value, ha, hv, rfl⟩, ?_⟩
    rw [hread, hf]
    simp only [hdoc.asString ha, hdoc.asString hv]
    rfl

theorem readEntry_error (hdoc : json.Documented shape nullIsObject) {e : Value}
    (h : ¬EntryKinded shape nullIsObject e) : ∃ error, readEntry json e = .error error := by
  by_cases hkeyed : Keyed shape nullIsObject e
  · obtain ⟨f, hf, hscalar⟩ :
        ∃ f, fieldsOf shape e = some f ∧ ¬(Scalar shape f.1 ∧ Scalar shape f.2) := by
      by_contra hnone
      push Not at hnone
      exact h ⟨hkeyed, hnone⟩
    obtain ⟨ms, hms⟩ := hkeyed
    rw [readEntry_members hdoc hms, hf]
    by_cases haddress : Scalar shape f.1
    · obtain ⟨address, ha⟩ := haddress
      have hvalue : ¬Scalar shape f.2 := fun hvalue => hscalar ⟨⟨address, ha⟩, hvalue⟩
      obtain ⟨error, hv⟩ := hdoc.asString_raises (not_scalar hvalue)
      exact ⟨error, by simp only [hdoc.asString ha, hv]; rfl⟩
    · obtain ⟨error, ha⟩ := hdoc.asString_raises (not_scalar haddress)
      exact ⟨error, by simp only [ha]; rfl⟩
  · obtain ⟨error, hraises⟩ := hdoc.isMember_raises (not_keyed hkeyed) "address"
    refine ⟨error, ?_⟩
    unfold readEntry
    rw [hraises]
    rfl

section Runs

variable (fails : ℕ → Bool)

@[simp] theorem writeRegister_writes (t : DumpTally) (w : Word × Word) :
    (writeRegister fails t w).writes = t.writes ++ [w] := by
  unfold writeRegister
  split <;> rfl

theorem readEntry_key (hdoc : json.Documented shape nullIsObject) {r : Value}
    {regs : OrderedMap String Value} (hr : shape r = .object regs) {e : String × Value}
    (he : e ∈ regs.entries) : (json.get r e.1 >>= readEntry json) = readEntry json e.2 := by
  rw [hdoc.get (members_object hr) (regs.lookup_of_mem he)]
  rfl

/-- The loop over entries of the right kind writes what they say, whatever writes fail. -/
theorem applyEntries_ok (hdoc : json.Documented shape nullIsObject) {r : Value}
    {regs : OrderedMap String Value} (hr : shape r = .object regs) {es : List (String × Value)}
    (hmem : ∀ e ∈ es, e ∈ regs.entries)
    (h : ∀ e ∈ es, EntryKinded shape nullIsObject e.2) (t : DumpTally) :
    ∃ ws, List.Forall₂ (Written shape) ((es.map Prod.snd).filterMap (fieldsOf shape)) ws ∧
      let s := applyEntries json fails r (es.map Prod.fst) t
      s.2 = .ok () ∧ s.1.writes = t.writes ++ ws := by
  induction es generalizing t with
  | nil => exact ⟨[], List.Forall₂.nil, rfl, (List.append_nil _).symm⟩
  | cons e es ih =>
    have hrest := ih (fun d hd => hmem d (List.mem_cons_of_mem _ hd))
      (fun d hd => h d (List.mem_cons_of_mem _ hd))
    have hbind := readEntry_key hdoc hr (hmem e List.mem_cons_self)
    rw [List.map_cons, List.map_cons]
    rcases readEntry_ok hdoc (h e List.mem_cons_self) with
      ⟨hnone, hread⟩ | ⟨f, w, hf, hw, hread⟩
    · obtain ⟨ws, hws, hdone⟩ := hrest t
      refine ⟨ws, by rwa [List.filterMap_cons_none hnone], ?_⟩
      simp only [applyEntries, hbind, hread]
      exact hdone
    · obtain ⟨ws, hws, hok, hwrites⟩ := hrest (writeRegister fails t w)
      refine ⟨w :: ws, ?_, ?_⟩
      · rw [List.filterMap_cons_some hf]
        exact List.Forall₂.cons hw hws
      · simp only [applyEntries, hbind, hread]
        refine ⟨hok, ?_⟩
        rw [hwrites, writeRegister_writes, List.append_assoc, List.singleton_append]

theorem applyEntries_error (hdoc : json.Documented shape nullIsObject) {r : Value}
    {regs : OrderedMap String Value} (hr : shape r = .object regs) {es : List (String × Value)}
    (hmem : ∀ e ∈ es, e ∈ regs.entries)
    (h : ∃ e ∈ es, ¬EntryKinded shape nullIsObject e.2) (t : DumpTally) :
    ∃ error, (applyEntries json fails r (es.map Prod.fst) t).2 = .error error := by
  induction es generalizing t with
  | nil =>
    obtain ⟨e, he, _⟩ := h
    exact absurd he List.not_mem_nil
  | cons e es ih =>
    have hbind := readEntry_key hdoc hr (hmem e List.mem_cons_self)
    rw [List.map_cons]
    by_cases hkind : EntryKinded shape nullIsObject e.2
    · obtain ⟨d, hd, hwrong⟩ := h
      have hlater : ∃ d ∈ es, ¬EntryKinded shape nullIsObject d.2 := by
        rcases List.mem_cons.mp hd with rfl | hd
        · exact absurd hkind hwrong
        · exact ⟨d, hd, hwrong⟩
      have hrest := ih (fun d hd => hmem d (List.mem_cons_of_mem _ hd)) hlater
      rcases readEntry_ok hdoc hkind with ⟨_, hread⟩ | ⟨f, w, _, _, hread⟩
      · simp only [applyEntries, hbind, hread]
        exact hrest t
      · simp only [applyEntries, hbind, hread]
        exact hrest _
    · obtain ⟨error, hread⟩ := readEntry_error hdoc hkind
      exact ⟨error, by simp only [applyEntries, hbind, hread]⟩

theorem registersOf_eq {root : Value} {ms : OrderedMap String Value}
    (h : shape root = .object ms) :
    registersOf shape root =
      match (ms.lookup "registers").map shape with
      | some (.object regs) => some regs
      | _ => none := by
  unfold registersOf
  rw [h]

theorem apply_none (hdoc : json.Documented shape nullIsObject) {root : Value}
    {ms : OrderedMap String Value} (hms : (shape root).members nullIsObject = some ms)
    (h : ms.lookup "registers" = none) :
    registersOf shape root = none ∧
      applyRegisterDump json fails (some root) = ({}, .ok false) := by
  constructor
  · rcases members_cases hms with hobject | ⟨hnull, _⟩
    · rw [registersOf_eq hobject, h]
      rfl
    · unfold registersOf
      rw [hnull]
  · simp only [applyRegisterDump, hdoc.isMember hms, h]
    rfl

theorem apply_object (hdoc : json.Documented shape nullIsObject) {root : Value}
    {ms : OrderedMap String Value} (hms : (shape root).members nullIsObject = some ms) {r : Value}
    (hr : ms.lookup "registers" = some r) :
    applyRegisterDump json fails (some root) =
      match json.getMemberNames r with
      | .error e => ({}, .error e)
      | .ok names =>
        ((applyEntries json fails r names {}).1,
          (applyEntries json fails r names {}).2.map fun _ => true) := by
  simp only [applyRegisterDump, hdoc.isMember hms, hdoc.get hms hr, hr, Option.isSome_some]

theorem map_true {r : Access Unit} {handled : Bool} (h : (r.map fun _ => true) = .ok handled) :
    handled = true := by
  cases r with
  | error e => cases h
  | ok u =>
    cases h
    rfl

theorem registersOf_none {root : Value} {ms : OrderedMap String Value}
    (hms : shape root = .object ms) {r : Value} (hr : ms.lookup "registers" = some r)
    (h : ∀ regs, shape r ≠ .object regs) : registersOf shape root = none := by
  rw [registersOf_eq hms, hr, Option.map_some]
  cases hshape : shape r with
  | object regs => exact absurd hshape (h regs)
  | _ => rfl

theorem registersOf_object {root : Value} {ms : OrderedMap String Value}
    (hms : shape root = .object ms) {r : Value} (hr : ms.lookup "registers" = some r)
    {regs : OrderedMap String Value} (hregs : shape r = .object regs) :
    registersOf shape root = some regs := by
  rw [registersOf_eq hms, hr, Option.map_some, hregs]

/-- A document of the right kinds is applied exactly. -/
theorem WellKinded.exact (hdoc : json.Documented shape nullIsObject) {root : Value}
    (h : WellKinded shape nullIsObject root) :
    Exact shape root (applyRegisterDump json fails (some root)) := by
  obtain ⟨⟨ms, hms⟩, hmember⟩ := h
  cases hr : ms.lookup "registers" with
  | none =>
    obtain ⟨habsent, hrun⟩ := apply_none fails hdoc hms hr
    rw [hrun]
    refine ⟨false, rfl, fun _ => ⟨rfl, rfl⟩, fun regs hregs => ?_⟩
    rw [habsent] at hregs
    cases hregs
  | some r =>
    have hobject : shape root = .object ms := by
      rcases members_cases hms with hobject | ⟨_, rfl⟩
      · exact hobject
      · cases hr
    obtain ⟨regs, hregs, hkinds⟩ := hmember ms hobject r hr
    obtain ⟨ws, hws, hok, hwrites⟩ := applyEntries_ok fails hdoc hregs (fun e he => he)
      (fun e he => hkinds e.2 (List.mem_map_of_mem he)) {}
    rw [apply_object fails hdoc hms hr, hdoc.getMemberNames (members_object hregs)]
    have hfound := registersOf_object hobject hr hregs
    refine ⟨true, congrArg (Except.map fun _ => true) hok, fun habsent => ?_,
      fun regs' hregs' => ⟨rfl, ?_⟩⟩
    · rw [hfound] at habsent
      cases habsent
    · rw [hfound] at hregs'
      cases hregs'
      exact hwrites ▸ hws

theorem wellKinded_of_exact (hdoc : json.Documented shape nullIsObject) {root : Value}
    (h : Exact shape root (applyRegisterDump json fails (some root))) :
    WellKinded shape nullIsObject root := by
  obtain ⟨handled, hok, habsent, _⟩ := h
  have hkeyed : Keyed shape nullIsObject root := by
    by_contra hnot
    obtain ⟨error, hraises⟩ := hdoc.isMember_raises (not_keyed hnot) "registers"
    simp only [applyRegisterDump, hraises] at hok
    cases hok
  refine ⟨hkeyed, fun ms hms r hr => ?_⟩
  rw [apply_object fails hdoc (members_object hms) hr] at hok
  by_cases hnames : Keyed shape nullIsObject r
  case neg =>
    obtain ⟨error, hraises⟩ := hdoc.getMemberNames_raises (not_keyed hnames)
    rw [hraises] at hok
    cases hok
  case pos =>
    obtain ⟨regs, hregs⟩ := hnames
    rw [hdoc.getMemberNames hregs] at hok
    have hobject : shape r = .object regs := by
      rcases members_cases hregs with hobject | ⟨hnull, _⟩
      · exact hobject
      · -- null is passed for an object: nothing is written and true is returned
        have hnone := registersOf_none hms hr fun regs hregs => by
          rw [hnull] at hregs
          cases hregs
        obtain ⟨hfalse, _⟩ := habsent hnone
        rw [hfalse] at hok
        exact absurd (map_true hok) Bool.false_ne_true
    refine ⟨regs, hobject, fun e he => ?_⟩
    obtain ⟨entry, hentry, rfl⟩ := List.mem_map.mp he
    by_contra hwrong
    obtain ⟨error, hthrows⟩ := applyEntries_error fails hdoc hobject (fun e he => he)
      ⟨entry, hentry, hwrong⟩ {}
    simp only [OrderedMap.keys, hthrows] at hok
    cases hok

/-- The dump is applied exactly if every value of the document has the kind that the format
has in its place, with any jsoncpp that does what its documentation says. -/
theorem dump_exact_iff (hdoc : json.Documented shape nullIsObject) (root : Value) :
    Exact shape root (applyRegisterDump json fails (some root)) ↔
      WellKinded shape nullIsObject root :=
  ⟨wellKinded_of_exact fails hdoc, fun h => h.exact fails hdoc⟩

end Runs

/-- Two entries and a comment, which is passed over. -/
def twoRegisters : Json :=
  .object [("registers", .object [
    ("reg_8034", .object [("address", .string "0x8034"), ("value", .int 10)]),
    ("comment", .object [("text", .string "trigger hold-off")]),
    ("reg_8000", .object [("address", .string "8000"), ("value", .string "0x10")])])]

theorem dump_exact_twoRegisters :
    Exact Json.shape twoRegisters
        (applyRegisterDump (Json.library true) (fun _ => true) (some twoRegisters)) ∧
      (applyRegisterDump (Json.library true) (fun _ => true) (some twoRegisters)).1.writes =
        [(0x8000, 0x10), (0x8034, 0x10)] := by
  refine ⟨(dump_exact_iff (fun _ => true) (Json.library_documented true) twoRegisters).mpr ?_,
    by decide +kernel⟩
  refine ⟨⟨_, rfl⟩, ?_⟩
  rintro ms hms r hr
  cases hms
  cases hr
  refine ⟨_, rfl, fun e he => ?_⟩
  have hentry : e ∈ [Json.object [("text", .string "trigger hold-off")],
      .object [("address", .string "8000"), ("value", .string "0x10")],
      .object [("address", .string "0x8034"), ("value", .int 10)]] := he
  simp only [List.mem_cons, List.not_mem_nil, or_false] at hentry
  obtain rfl | rfl | rfl := hentry <;>
    exact ⟨⟨_, rfl⟩, fun f hf => by cases hf <;> exact ⟨⟨_, rfl⟩, ⟨_, rfl⟩⟩⟩

def strayNumber : Json :=
  .object [("registers", .object [
    ("reg_8000", .object [("address", .string "0x8000"), ("value", .string "0x10")]),
    ("reg_8034", .int 3)])]

theorem strayNumber_throws :
    ¬Exact Json.shape strayNumber
        (applyRegisterDump (Json.library false) (fun _ => false) (some strayNumber)) ∧
      ¬Exact Json.shape strayNumber
        (applyRegisterDump (Json.library true) (fun _ => false) (some strayNumber)) ∧
      (applyRegisterDump (Json.library true) (fun _ => false) (some strayNumber)).1.writes =
        [(0x8000, 0x10)] := by
  have hthrows : (applyRegisterDump (Json.library false) (fun _ => false)
      (some strayNumber)).2 = .error .notObject := by rfl
  have hthrows' : (applyRegisterDump (Json.library true) (fun _ => false)
      (some strayNumber)).2 = .error .notObject := by rfl
  refine ⟨?_, ?_, by decide +kernel⟩
  · rintro ⟨handled, hok, _⟩
    rw [hthrows] at hok
    cases hok
  · rintro ⟨handled, hok, _⟩
    rw [hthrows'] at hok
    cases hok

def writeOf (shape : Value → Shape Value) (f : Value × Value) : Option (Word × Word) :=
  match (shape f.1).text, (shape f.2).text with
  | some address, some value => some (parseHex address, parseHex value)
  | _, _ => none

/-- What loading the file answers to the device. -/
def dumpOf (shape : Value → Shape Value) (root : Value) : Option (List (ℕ × Word)) :=
  (registersOf shape root).map fun regs =>
    ((regs.values.filterMap (fieldsOf shape)).filterMap (writeOf shape)).map fun w =>
      (w.1.toNat, w.2)

theorem Written.writeOf {f : Value × Value} {w : Word × Word} (h : Written shape f w) :
    writeOf shape f = some w := by
  obtain ⟨address, value, ha, hv, rfl⟩ := h
  simp only [RegisterDump.writeOf, ha, hv]

theorem written_filterMap {fs : List (Value × Value)} {ws : List (Word × Word)}
    (h : List.Forall₂ (Written shape) fs ws) : fs.filterMap (writeOf shape) = ws := by
  induction h with
  | nil => rfl
  | cons hw _ ih => rw [List.filterMap_cons_some hw.writeOf, ih]

theorem writeDump_contacts (world : ℕ → Reply) (d : CaenDigitizer) (entries : List (ℕ × Word)) :
    (CaenDigitizer.writeDump world d entries).calls.map Prod.fst =
      d.calls.map Prod.fst ++ entries.map fun e => .writeRegister e.1 e.2 := by
  induction entries generalizing d with
  | nil => simp [CaenDigitizer.writeDump]
  | cons e entries ih =>
    have hone : (CaenDigitizer.clearError (CaenDigitizer.drive world (.writeRegister e.1 e.2)
        (CaenDigitizer.clearError d)).2).calls.map Prod.fst =
          d.calls.map Prod.fst ++ [.writeRegister e.1 e.2] := by
      unfold CaenDigitizer.drive
      simp only
      split <;> simp [CaenDigitizer.contact, CaenDigitizer.emitError, CaenDigitizer.clearError]
    have hrest := ih (CaenDigitizer.clearError (CaenDigitizer.drive world (.writeRegister e.1 e.2)
        (CaenDigitizer.clearError d)).2)
    rw [hone, List.append_assoc] at hrest
    exact hrest

/-- The device whose file holds a document of the right kinds makes the writes of the dump. -/
theorem device_applies (hdoc : json.Documented shape nullIsObject) (fails : ℕ → Bool)
    (world : ℕ → Reply) (d : CaenDigitizer) {root : Value}
    (h : WellKinded shape nullIsObject root)
    (hload : (world d.calls.length).dump = dumpOf shape root) :
    let r := CaenDigitizer.applyRegisterDump world d
    let s := applyRegisterDump json fails (some root)
    s.2 = .ok r.1 ∧ r.2.calls.map Prod.fst = d.calls.map Prod.fst ++
      .loadDump :: s.1.writes.map fun w => .writeRegister w.1.toNat w.2 := by
  obtain ⟨handled, hok, habsent, hpresent⟩ := h.exact fails hdoc
  have hreply : (CaenDigitizer.contact world .loadDump d).1.dump = dumpOf shape root := hload
  have hcalls : (CaenDigitizer.contact world .loadDump d).2.calls.map Prod.fst =
      d.calls.map Prod.fst ++ [.loadDump] := by
    simp [CaenDigitizer.contact]
  simp only [CaenDigitizer.applyRegisterDump, hreply, dumpOf, hok]
  cases hregs : registersOf shape root with
  | none =>
    obtain ⟨rfl, hnothing⟩ := habsent hregs
    rw [hnothing]
    exact ⟨rfl, hcalls⟩
  | some regs =>
    obtain ⟨rfl, hwrites⟩ := hpresent regs hregs
    refine ⟨rfl, ?_⟩
    simp only [Option.map_some]
    rw [writeDump_contacts, hcalls, written_filterMap hwrites, List.map_map, List.append_assoc]
    rfl

end RegisterDump
end CaenDaq
