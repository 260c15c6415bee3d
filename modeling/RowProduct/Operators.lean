import RowProduct.Step
import RowProduct.Traversal

namespace RowProduct

/-- An operator has a kind and, for a branch and the steps that remain in it, a traversal of its own. The
last argument runs the remaining steps from a row and a scope. The traversal may give anything in any
order; what comes after its first error or its first gap is not asked for. -/
class Operators (Ω : Type) where
  kind : Ω → String
  traverse : Ω → Row → Scope → List (Step Ω) → (Row → Scope → Traversal) → Traversal

instance : Operators Empty where
  kind := Empty.elim
  traverse op := op.elim

def Step.kind {Ω : Type} [Operators Ω] : Step Ω → String
  | .columns _ => "columns"
  | .dataset _ => "dataset"
  | .unrecognized _ => "unrecognized"
  | .column _ => "col"
  | .merge _ _ => "merge"
  | .filter _ => "filter"
  | .group _ _ => "group"
  | .select _ => "select"
  | .discard _ => "discard"
  | .operator op => Operators.kind op

end RowProduct
