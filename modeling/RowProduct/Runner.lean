import RowProduct.Config
import RowProduct.Plan
import RowProduct.Traversal.Metered

namespace RowProduct

structure Cursor where
  source : Traversal
  emitted : Nat
  limit : Option Nat

namespace Cursor

def empty : Cursor := ⟨.done, 0, none⟩

def isRunning (c : Cursor) : Bool :=
  match c.source with
  | .done => false
  | _ => true

def next (c : Cursor) : Traced (Option Item × Cursor) := do
  let (item, source) ← c.source.poll
  let rows := if item matches some (.ok _) then c.emitted + 1 else c.emitted
  return (item, { c with source, emitted := rows })

end Cursor

structure Runner where
  config : Config
  valid : config.Valid

namespace Runner

variable {Ω : Type} [Operators Ω]

def default : Runner := ⟨{}, by decide⟩

def ofConfig (config : Config) : Except Error Runner :=
  if valid : config.Valid then .ok ⟨config, valid⟩ else .error Config.zeroInterval

/-- Opens a run. A program without steps gives no rows at all, and nothing of it is run. -/
def start (r : Runner) (steps : List (Step Ω)) : Traced Cursor :=
  if steps.isEmpty then return .empty
  else
    ⟨[.started steps.length],
      { source := (enumerate ∅ ∅ steps).metered r.config.rowLimit r.config.progressInterval 0
        emitted := 0
        limit := r.config.rowLimit }⟩

def collect (r : Runner) (steps : List (Step Ω)) : Traced (Except Error (List Row)) := do
  (← r.start steps).source.collect

end Runner

variable {Ω : Type} [Operators Ω]

def productCursor (steps : List (Step Ω)) : Traced Cursor := Runner.default.start steps

def product (steps : List (Step Ω)) : Traced (Except Error (List Row)) := Runner.default.collect steps

end RowProduct
