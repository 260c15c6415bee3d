import RowProduct.Event

namespace RowProduct

inductive ColumnSource where
  | values (vs : List Value)
  | computed (f : Scope → Traced (Except String Value))

namespace ColumnSource

def ofValue (v : Value) : ColumnSource := .values v.items

def total (f : Scope → Traced Value) : ColumnSource :=
  .computed fun scope ↦ do return .ok (← f scope)

end ColumnSource

structure Column where
  name : String
  source : ColumnSource

namespace Column

def resolve (c : Column) (scope : Scope) : Traced (Except Error (List Value)) :=
  match c.source with
  | .values vs => return .ok vs
  | .computed f => do
    match ← f scope with
    | .ok v => return .ok v.items
    | .error reason => return .error (.columnFailed c.name reason)

end Column

/-- Columns that are nested in their order, the last one varying fastest. A name may occur twice. -/
abbrev ColumnBlock := List Column

def ColumnBlock.ofFields (fields : Fields) : ColumnBlock :=
  fields.map fun field ↦ ⟨field.1, .ofValue field.2⟩

end RowProduct
