import RowProduct.Config
import RowProduct.Json.Tree

namespace RowProduct

open Json (Tree)

namespace Config

def setting? : Tree → Option (Option Nat)
  | .null => some none
  | .number ⟨false, digits, none, none⟩ =>
    let n := Decimal.natural digits
    if n < Whole.wordCount then some (some n) else none
  | _ => none

def once? (fields : List (String × Tree)) (name : String) : Option (Option Nat) :=
  match fields.filter (·.1 == name) with
  | [] => some none
  | [(_, t)] => setting? t
  | _ => none

/-- An object with the two settings by name, whatever else it holds, or an array of the two. -/
def ofTree? : Tree → Option Config
  | .array [rowLimit, progressInterval] => return ⟨← setting? rowLimit, ← setting? progressInterval⟩
  | .object fields => do
    let fields ← fields.mapM fun (name, t) ↦ name.map (·, t)
    return ⟨← once? fields "row_limit", ← once? fields "progress_interval"⟩
  | _ => none

def ofText? (s : String) : Option Config := Tree.ofText? s >>= ofTree?

end Config

def Record.ofText? (s : String) : Option Record := Value.ofText? s >>= Record.ofValue?

end RowProduct
