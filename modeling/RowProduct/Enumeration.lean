import RowProduct.Operators

namespace RowProduct

variable {Ω α : Type}

/-- Takes a branch through the steps that remain; the last argument is what comes after the branch. -/
abbrev Continuation := Row → Scope → (Unit → Traversal) → Traversal

namespace Traversal

def branches (branch : α → (Unit → Traversal) → Traversal) :
    List α → (Unit → Traversal) → Traversal
  | [], after => after ()
  | a :: as, after => branch a fun _ ↦ branches branch as after

def dispatched (kind : String) (remaining : Nat) (row : Row) (scope : Scope) (next : Unit → Traversal) :
    Traversal :=
  .report [.dispatch row scope kind remaining] next

end Traversal

open Traversal

def Column.expand (c : Column) (next : Continuation) : Continuation := fun row scope after ↦
  perform (fun _ ↦ c.resolve scope) fun
    | .ok values =>
      branches (fun v ↦ next (row.insert c.name v) (scope.insert c.name v)) values after
    | .error e => fail e

def ColumnBlock.expand (remaining : Nat) (next : Continuation) : ColumnBlock → Continuation
  | [] => next
  | c :: block => fun row scope after ↦
    dispatched "col" (block.length + remaining) row scope fun _ ↦
      c.expand (ColumnBlock.expand remaining next block) row scope after

def mergeFrom (test : Option EntryTest) (next : Continuation) (row : Row) (scope : Scope)
    (after : Unit → Traversal) (index : Nat) : List Value → Traversal
  | [] => after ()
  | .object entry :: entries =>
    let go (after : Unit → Traversal) := next (row.overlay entry) (scope.overlay entry) after
    let others (_ : Unit) := mergeFrom test next row scope after (index + 1) entries
    match test with
    | none => go others
    | some test => perform (fun _ ↦ test scope entry) fun passes ↦ if passes then go others else others ()
  | v :: _ => .report [.rejected index] fun _ ↦ fail (.ofEntry index v)

variable [Operators Ω]

mutual

/-- Takes a branch through a step; `rest` are the steps after it and `next` takes a branch through them. -/
def Step.expand (rest : List (Step Ω)) (next : Continuation) : Step Ω → Continuation
  | .columns [] => fun _ _ _ ↦ fail (.ofStep (.object []))
  | .columns (c :: block) => ColumnBlock.expand rest.length next (c :: block)
  | .dataset entries => fun row scope after ↦
    dispatched "merge" rest.length row scope fun _ ↦ mergeFrom none next row scope after 0 entries
  | .unrecognized v => fun _ _ _ ↦ fail (.ofStep v)
  | .column c => c.expand next
  | .merge entries test => fun row scope after ↦ mergeFrom test next row scope after 0 entries
  | .filter test => fun row scope after ↦
    perform (fun _ ↦ test row) fun passes ↦ if passes then next row scope after else after ()
  | .group column steps => fun row scope after ↦
    (expandAll steps ∅ scope fun _ ↦ .done).gather
      (fun rows ↦ .report [.grouped column rows.length] fun _ ↦
        next (row.insert column (.array (rows.map Record.toValue))) scope after) []
  | .select names => fun row scope after ↦
    let kept := names.filter row.contains
    next (row.select kept) (scope.select kept) after
  | .discard names => fun row scope after ↦ next (row.discard names) (scope.discard names) after
  | .operator op => fun row scope after ↦
    (Operators.traverse op row scope rest fun row scope ↦ next row scope fun _ ↦ .done).append after

def expandAll : List (Step Ω) → Continuation
  | [] => fun row _ after ↦ .item (.ok row) after
  | step :: rest => fun row scope after ↦
    dispatched step.kind rest.length row scope fun _ ↦ step.expand rest (expandAll rest) row scope after

end

/-- Every row of the program from a row and a scope on. Branches come one after the other, and an error in one of
them is the end of all. -/
def enumerate (row : Row) (scope : Scope) (steps : List (Step Ω)) : Traversal :=
  expandAll steps row scope fun _ ↦ .done

end RowProduct
