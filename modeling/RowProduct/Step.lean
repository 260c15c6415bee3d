import RowProduct.Column

namespace RowProduct

abbrev EntryTest := Scope → Fields → Traced Bool

/-- The steps of a row program. `Ω` is the type of the operators that a caller adds; programs of built-in steps alone
are lists of `Step Empty`. -/
inductive Step (Ω : Type) where
  | columns (block : ColumnBlock)
  | dataset (entries : List Value)
  | unrecognized (v : Value)
  | column (c : Column)
  /-- Lays the entries over the branch that pass the test, all of them without a test. -/
  | merge (entries : List Value) (test : Option EntryTest)
  | filter (test : Row → Traced Bool)
  /-- Collects the rows of a nested program, which starts from the scope and an empty row. -/
  | group (column : String) (steps : List (Step Ω))
  | select (names : List String)
  | discard (names : List String)
  | operator (op : Ω)

namespace Step

variable {Ω : Type}

def ofValue : Value → Step Ω
  | .array entries => .dataset entries
  | .object (field :: fields) => .columns (.ofFields (field :: fields))
  | v => .unrecognized v

def ofRows (rows : List Row) : Step Ω := .dataset (rows.map Record.toValue)

def forEach (entries : List Value) : Step Ω := .merge entries none

def sharesColumn (name : String) : EntryTest := fun scope entry ↦
  return match scope.get? name, entry.lookup name with
    | some left, some right => left.agrees right
    | _, _ => false

def join (entries : List Value) (column : String) : Step Ω :=
  .merge entries (some (sharesColumn column))

end Step

end RowProduct
