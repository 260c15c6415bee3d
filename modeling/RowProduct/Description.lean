import RowProduct.Runner
import RowProduct.Value.Description

namespace RowProduct

open Value (bracketed describeItems describeString)

def ColumnSource.describe : ColumnSource → String
  | .values vs => "Values(" ++ bracketed (describeItems vs) ++ ")"
  | .computed _ => "Func(..)"

def Column.describe (c : Column) : String :=
  "Column \x7b key: " ++ describeString c.name ++ ", data: " ++ c.source.describe ++ " \x7d"

def ColumnBlock.describe (block : ColumnBlock) : String :=
  bracketed (block.map fun c ↦ describeString c.name)

def Step.describe {Ω : Type} [Operators Ω] (s : Step Ω) : String :=
  match s with
  | .columns block => "Columns(" ++ ColumnBlock.describe block ++ ")"
  | .dataset entries =>
    "Dataset(Dataset \x7b entries: " ++ bracketed (describeItems entries) ++ " \x7d)"
  | .unrecognized v => "Unrecognized(" ++ v.describe ++ ")"
  | _ => "Operator(" ++ describeString s.kind ++ ")"

def Plan.describe {Ω : Type} [Operators Ω] (p : Plan Ω) : String :=
  bracketed (p.toList.map Step.describe)

def Cursor.describe (c : Cursor) : String :=
  let limit := match c.limit with
    | some n => "Some(" ++ toString n ++ ")"
    | none => "None"
  "RowIter \x7b running: " ++ toString c.isRunning ++ ", emitted: " ++ toString c.emitted ++
    ", limit: " ++ limit ++ " \x7d"

end RowProduct
