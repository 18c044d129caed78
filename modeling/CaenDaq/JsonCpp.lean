import CaenDaq.OrderedMap
import Mathlib.Data.String.Basic

/-!
# The calls of jsoncpp

jsoncpp is not among the sources. Its functions are a parameter, over any type of values,
and `Documented` is what its documentation says of them. `Json.library` is such a library.
-/

namespace CaenDaq

/-- What a value is. A scalar is a string, a number or a boolean, with the text of it. -/
inductive Shape (Value : Type)
  | null
  | scalar (text : String)
  | array
  | object (members : OrderedMap String Value)

namespace Shape

variable {Value : Type}

/-- The text of a value that has one; that of null is empty. -/
def text : Shape Value → Option String
  | .null => some ""
  | .scalar t => some t
  | .array | .object _ => none

/-- The members of a value that may be asked for them. Null may where it counts as an
empty object. -/
def members (nullIsObject : Bool) : Shape Value → Option (OrderedMap String Value)
  | .object ms => some ms
  | .null => if nullIsObject then some .empty else none
  | .scalar _ | .array => none

end Shape

inductive LogicError
  | notObject | notConvertible
  deriving DecidableEq, Repr

/-- An access, or the `Json::LogicError` that it raises. -/
abbrev Access := Except LogicError

structure JsonCpp (Value : Type) where
  isMember : Value → String → Access Bool
  getMemberNames : Value → Access (List String)
  get : Value → String → Access Value
  asString : Value → Access String

/-- The documented behaviour of the calls: the answer on a value of the right kind, an
exception on any other. -/
structure JsonCpp.Documented {Value : Type} (shape : Value → Shape Value) (nullIsObject : Bool)
    (json : JsonCpp Value) : Prop where
  isMember : ∀ {v ms}, (shape v).members nullIsObject = some ms →
    ∀ key, json.isMember v key = .ok (ms.lookup key).isSome
  getMemberNames : ∀ {v ms}, (shape v).members nullIsObject = some ms →
    json.getMemberNames v = .ok ms.keys
  get : ∀ {v ms key w}, (shape v).members nullIsObject = some ms → ms.lookup key = some w →
    json.get v key = .ok w
  asString : ∀ {v t}, (shape v).text = some t → json.asString v = .ok t
  isMember_raises : ∀ {v}, (shape v).members nullIsObject = none →
    ∀ key, ∃ e, json.isMember v key = .error e
  getMemberNames_raises : ∀ {v}, (shape v).members nullIsObject = none →
    ∃ e, json.getMemberNames v = .error e
  get_raises : ∀ {v}, (shape v).members nullIsObject = none →
    ∀ key, ∃ e, json.get v key = .error e
  asString_raises : ∀ {v}, (shape v).text = none → ∃ e, json.asString v = .error e

/-- A parsed document. The members of an object stand in the order of the document. -/
inductive Json
  | null
  | int (n : ℤ)
  /-- Any other number, as jsoncpp prints it. -/
  | real (text : String)
  | bool (b : Bool)
  | string (s : String)
  | array (elements : List Json)
  | object (members : List (String × Json))

namespace Json

/-- Of two members with one key the parser keeps the later. -/
def shape : Json → Shape Json
  | .null => .null
  | .int n => .scalar (toString n)
  | .real text => .scalar text
  | .bool b => .scalar (if b then "true" else "false")
  | .string s => .scalar s
  | .array _ => .array
  | .object ms => .object (OrderedMap.ofList ms)

variable (nullIsObject : Bool)

def members (j : Json) : Access (OrderedMap String Json) :=
  match j.shape.members nullIsObject with
  | some ms => .ok ms
  | none => .error .notObject

/-- A library over such documents. A member that is not there is null. -/
def library : JsonCpp Json where
  isMember j key := do return ((← members nullIsObject j).lookup key).isSome
  getMemberNames j := do return (← members nullIsObject j).keys
  get j key := do return ((← members nullIsObject j).lookup key).getD .null
  asString j :=
    match j.shape.text with
    | some t => .ok t
    | none => .error .notConvertible

theorem members_ok {j : Json} {ms : OrderedMap String Json}
    (h : j.shape.members nullIsObject = some ms) : members nullIsObject j = .ok ms := by
  unfold members
  rw [h]

theorem members_error {j : Json} (h : j.shape.members nullIsObject = none) :
    members nullIsObject j = .error .notObject := by
  unfold members
  rw [h]

theorem library_documented : (library nullIsObject).Documented shape nullIsObject where
  isMember h key := by simp only [library, members_ok nullIsObject h]; rfl
  getMemberNames h := by simp only [library, members_ok nullIsObject h]; rfl
  get h hw := by
    simp only [library, members_ok nullIsObject h]
    exact congrArg (fun r : Option Json => Except.ok (r.getD .null)) hw
  asString h := by simp only [library, h]
  isMember_raises h key := ⟨.notObject, by simp only [library, members_error nullIsObject h]; rfl⟩
  getMemberNames_raises h :=
    ⟨.notObject, by simp only [library, members_error nullIsObject h]; rfl⟩
  get_raises h key := ⟨.notObject, by simp only [library, members_error nullIsObject h]; rfl⟩
  asString_raises h := ⟨.notConvertible, by simp only [library, h]⟩

end Json
end CaenDaq
