import RowProduct.Error
import RowProduct.Record

namespace RowProduct

inductive Finish where
  | limit
  | error
  | exhausted
  deriving DecidableEq

def Finish.name : Finish → String
  | .limit => "limit"
  | .error => "error"
  | .exhausted => "exhausted"

inductive Event where
  | note (line : String)
  | dispatch (row : Row) (scope : Scope) (kind : String) (remaining : Nat)
  | grouped (column : String) (rows : Nat)
  | rejected (index : Nat)
  | started (steps : Nat)
  | progress (rows : Nat)
  | failed (error : Error)
  | finished (reason : Finish) (rows : Nat)

namespace Event

def generationLine (event property value : String) : String :=
  "generation event=" ++ event ++ " k=" ++ property ++ " v=" ++ value

def lines : Event → List String
  | .note line => [line]
  | .dispatch _ _ kind remaining => ["dispatch step=" ++ kind ++ " remaining=" ++ toString remaining]
  | .grouped column rows => ["group materialized column=" ++ column ++ " rows=" ++ toString rows]
  | .rejected index => ["rejected non-object dataset entry index=" ++ toString index]
  | .started steps => [generationLine "start" "steps" (toString steps)]
  | .progress rows => [generationLine "progress" "rows" (toString rows)]
  | .failed error => [generationLine "error" "error" error.message]
  | .finished reason rows =>
    [generationLine "finish" "reason" reason.name, generationLine "finish" "rows" (toString rows)]

def isNote : Event → Bool
  | .note _ => true
  | _ => false

end Event

/-- A value together with the events on the way to it, the first one first. -/
structure Traced (α : Type) where
  events : List Event
  value : α

namespace Traced

instance : Monad Traced where
  pure a := ⟨[], a⟩
  bind x f := ⟨x.events ++ (f x.value).events, (f x.value).value⟩

def note (line : String) : Traced Unit := ⟨[.note line], ()⟩

end Traced

end RowProduct
