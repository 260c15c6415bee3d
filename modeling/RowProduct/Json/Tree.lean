import RowProduct.Json.Token
import RowProduct.Fields

namespace RowProduct.Json

inductive Tree where
  | null
  | bool (b : Bool)
  | number (l : Literal)
  | string (s : Option String)
  | array (items : List Tree)
  | object (fields : List (Option String × Tree))

inductive Opened where
  | array (items : List Tree)
  | object (fields : List (Option String × Tree))
  | member (fields : List (Option String × Tree)) (name : Option String)

inductive Expected where
  | value
  | firstValue
  | name
  | firstName
  | colon (name : Option String)
  | separator
  | nothing (result : Tree)

/-- What has been opened, the innermost first, and what may come next. -/
structure Reader where
  opened : List Opened
  expected : Expected

namespace Reader

def start : Reader := ⟨[], .value⟩

def place (t : Tree) : List Opened → Option Reader
  | [] => some ⟨[], .nothing t⟩
  | .array items :: opened => some ⟨.array (t :: items) :: opened, .separator⟩
  | .member fields name :: opened => some ⟨.object ((name, t) :: fields) :: opened, .separator⟩
  | .object _ :: _ => none

def value (opened : List Opened) : Token → Option Reader
  | .openArray => some ⟨.array [] :: opened, .firstValue⟩
  | .openObject => some ⟨.object [] :: opened, .firstName⟩
  | .null => place .null opened
  | .bool b => place (.bool b) opened
  | .number l => place (.number l) opened
  | .string s => place (.string s) opened
  | _ => none

def step (r : Reader) (token : Token) : Option Reader :=
  match r.expected, r.opened, token with
  | .firstValue, .array _ :: opened, .closeArray => place (.array []) opened
  | .firstName, .object _ :: opened, .closeObject => place (.object []) opened
  | .value, opened, token | .firstValue, opened, token => value opened token
  | .name, opened, .string s | .firstName, opened, .string s => some ⟨opened, .colon s⟩
  | .colon name, .object fields :: opened, .colon => some ⟨.member fields name :: opened, .value⟩
  | .separator, .array items :: opened, .comma => some ⟨.array items :: opened, .value⟩
  | .separator, .array items :: opened, .closeArray => place (.array items.reverse) opened
  | .separator, .object fields :: opened, .comma => some ⟨.object fields :: opened, .name⟩
  | .separator, .object fields :: opened, .closeObject => place (.object fields.reverse) opened
  | _, _, _ => none

def finish? (r : Reader) : Option Tree :=
  match r.expected with
  | .nothing t => some t
  | _ => none

end Reader

def Tree.ofText? (s : String) : Option Tree := do
  (← (← tokens? s).foldlM Reader.step .start).finish?

namespace Tree

def depthLimit : Nat := 127

mutual

/-- The value of a tree. A repeated name keeps its first place and takes its last value. Numbers that are
too large, halves of surrogate pairs and too deep a nesting have none. -/
def toValueWithin? (depth : Nat) : Tree → Option Value
  | .null => some .null
  | .bool b => some (.bool b)
  | .number l => l.toNumber?.map .number
  | .string s => s.map .string
  | .array items => do
    guard (0 < depth)
    return .array (← itemsWithin? (depth - 1) items)
  | .object fields => do
    guard (0 < depth)
    return .object (Fields.overlay [] (← fieldsWithin? (depth - 1) fields))

def itemsWithin? (depth : Nat) : List Tree → Option (List Value)
  | [] => some []
  | t :: ts => do return (← t.toValueWithin? depth) :: (← itemsWithin? depth ts)

def fieldsWithin? (depth : Nat) : List (Option String × Tree) → Option Fields
  | [] => some []
  | (name, t) :: fields => do
    return (← name, ← t.toValueWithin? depth) :: (← fieldsWithin? depth fields)

end

def toValue? (t : Tree) : Option Value := t.toValueWithin? depthLimit

end Tree

end RowProduct.Json

namespace RowProduct

def Value.ofText? (s : String) : Option Value := Json.Tree.ofText? s >>= Json.Tree.toValue?

end RowProduct
