import RowProduct.Operators

namespace RowProduct

inductive ScriptedItem where
  | row (r : Row)
  | fail (reason : String)
  | gap

inductive Scripted where
  | emit (items : List ScriptedItem)
  | repeat (times : Nat)
  | set (row scope : Fields)

namespace Scripted

def kind : Scripted → String
  | .emit _ => "emit"
  | .repeat _ => "repeat"
  | .set _ _ => "set"

def emitAll : List ScriptedItem → Traversal
  | [] => .done
  | .row r :: items => .item (.ok r) fun _ ↦ emitAll items
  | .fail reason :: items => .item (.error (.invalidConfig reason)) fun _ ↦ emitAll items
  | .gap :: items => .pause fun _ ↦ emitAll items

def repeated (run : Unit → Traversal) : Nat → Traversal
  | 0 => .done
  | n + 1 => .report [] fun _ ↦ (run ()).append fun _ ↦ repeated run n

instance : Operators Scripted where
  kind := kind
  traverse
    | .emit items, _, _, _, _ => emitAll items
    | .repeat times, row, scope, _, run => repeated (fun _ ↦ run row scope) times
    | .set overRow overScope, row, scope, _, run => run (row.overlay overRow) (scope.overlay overScope)

end Scripted

end RowProduct
