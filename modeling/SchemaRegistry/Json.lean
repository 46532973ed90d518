import Mathlib.Algebra.Group.Int.Defs
import Mathlib.Data.List.Basic

/-!
JSON values as `serde_json` holds them with its `preserve_order` feature: an
object keeps its members in insertion order, compares without regard to it, and
loses a member by moving the last one into its place. Metadata and rule sets are
such values; the registry reads them, merges them and prints them into its
content hash.
-/

namespace SchemaRegistry

/-- The characters of a printed number. -/
def isNumberChar (c : Char) : Bool :=
  c.isDigit || c == '-' || c == '+' || c == '.' || c == 'e' || c == 'E'

/-- What tells a printed float from an integer: a point or an exponent. -/
def isFloatMark (c : Char) : Bool := c == '.' || c == 'e' || c == 'E'

/-- The shortest printed form of a finite float. -/
structure FloatText where
  text : String
  wf : (text.toList.all isNumberChar && text.toList.any isFloatMark) = true
  deriving DecidableEq, Repr

inductive JsonNumber where
  | int (value : Int)
  /-- A float, by its shortest printed form. -/
  | float (form : FloatText)
  deriving DecidableEq, Repr

inductive Json where
  | null
  | bool (value : Bool)
  | number (value : JsonNumber)
  | string (value : String)
  | array (elems : List Json)
  | object (members : List (String × Json))
  deriving Repr

/-! ### Object members -/

/-- The members of an object, in insertion order (`serde_json::Map`). -/
abbrev JsonMap := List (String × Json)

namespace JsonMap

/-- A new name goes to the end, an existing one keeps its place. -/
def insert (m : JsonMap) (name : String) (value : Json) : JsonMap :=
  if m.any (·.1 == name) then m.map fun p => if p.1 == name then (name, value) else p
  else m ++ [(name, value)]

def extend (m other : JsonMap) : JsonMap :=
  other.foldl (fun acc p => acc.insert p.1 p.2) m

/-- `Map::remove` under `preserve_order`: the last member takes the free place. -/
def swapRemove (m : JsonMap) (name : String) : JsonMap :=
  match m.findIdx? (·.1 == name), m.getLast? with
  | some i, some last => if i + 1 = m.length then m.dropLast else m.dropLast.set i last
  | _, _ => m

end JsonMap

namespace Json

def get? : Json → String → Option Json
  | .object members, name => members.lookup name
  | _, _ => none

def asArray : Json → Option (List Json)
  | .array elems => some elems
  | _ => none

def asObject : Json → Option JsonMap
  | .object members => some members
  | _ => none

def asStr : Json → Option String
  | .string s => some s
  | _ => none

/-- `Value::as_u64`. -/
def asU64 : Json → Option Nat
  | .number (.int i) => if 0 ≤ i ∧ i < 2 ^ 64 then some i.toNat else none
  | _ => none

/-- `Value::as_i64`: an integer that fits 64 bits. -/
def asI64 : Json → Option Int
  | .number (.int i) => if -2 ^ 63 ≤ i ∧ i < 2 ^ 63 then some i else none
  | _ => none

def isNull : Json → Bool
  | .null => true
  | _ => false

/-- `value[name] = x` on an object; `null` becomes an object first. -/
def setMember : Json → String → Json → Json
  | .object members, name, x => .object (JsonMap.insert members name x)
  | .null, name, x => .object [(name, x)]
  | v, _, _ => v

mutual

/-- `==` on values: the order of an object's members does not count. -/
def eqv : Json → Json → Bool
  | .null, .null => true
  | .bool a, .bool b => a == b
  | .number a, .number b => a == b
  | .string a, .string b => a == b
  | .array a, .array b => eqvElems a b
  | .object a, .object b => a.length == b.length && eqvMembers a b
  | _, _ => false

def eqvElems : List Json → List Json → Bool
  | [], [] => true
  | a :: as, b :: bs => eqv a b && eqvElems as bs
  | _, _ => false

def eqvMembers : List (String × Json) → List (String × Json) → Bool
  | [], _ => true
  | (name, v) :: rest, other =>
      (match other.lookup name with
        | some w => eqv v w
        | none => false) && eqvMembers rest other

end

/-- `==` on optional values. -/
def eqvOpt : Option Json → Option Json → Bool
  | none, none => true
  | some a, some b => eqv a b
  | _, _ => false

/-! ### Printing -/

def hexDigit (n : Nat) : Char :=
  "0123456789abcdef".toList.getD (n % 16) '0'

/-- One character inside a JSON string literal, as `serde_json` escapes it. -/
def escapeChar (c : Char) : List Char :=
  if c = '"' then ['\\', '"']
  else if c = '\\' then ['\\', '\\']
  else if c.val = 8 then ['\\', 'b']
  else if c.val = 9 then ['\\', 't']
  else if c.val = 10 then ['\\', 'n']
  else if c.val = 12 then ['\\', 'f']
  else if c.val = 13 then ['\\', 'r']
  else if c.val < 32 then
    ['\\', 'u', '0', '0', hexDigit (c.val.toNat / 16), hexDigit c.val.toNat]
  else [c]

def renderString (s : String) : String :=
  "\"" ++ String.ofList (s.toList.flatMap escapeChar) ++ "\""

def renderNumber : JsonNumber → String
  | .int value => toString value
  | .float form => form.text

mutual

/-- `Value::to_string`: compact, members in order. -/
def render : Json → String
  | .null => "null"
  | .bool true => "true"
  | .bool false => "false"
  | .number n => renderNumber n
  | .string s => renderString s
  | .array elems => "[" ++ ",".intercalate (renderElems elems) ++ "]"
  | .object members => "\x7b" ++ ",".intercalate (renderMembers members) ++ "\x7d"

def renderElems : List Json → List String
  | [] => []
  | v :: vs => render v :: renderElems vs

def renderMembers : List (String × Json) → List String
  | [] => []
  | (name, v) :: rest => (renderString name ++ ":" ++ render v) :: renderMembers rest

end

end Json

example : (Json.object [("a", .array [.number (.int 1), .null])]).render
    = "\x7b\"a\":[1,null]\x7d" := by decide

example : Json.eqv (.object [("a", .null), ("b", .bool true)])
    (.object [("b", .bool true), ("a", .null)]) = true := by decide

end SchemaRegistry
