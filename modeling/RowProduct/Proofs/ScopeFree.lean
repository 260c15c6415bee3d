import RowProduct.Proofs.DepthFirst

namespace RowProduct

open Traversal

def Column.readsScope (c : Column) : Bool := c.source matches .computed _

mutual

def Step.readsScope : Step Empty → Bool
  | .columns block => block.any Column.readsScope
  | .column c => c.readsScope
  | .merge _ test => test.isSome
  | .group _ steps => readsScope steps
  | _ => false

def readsScope : List (Step Empty) → Bool
  | [] => false
  | step :: rest => step.readsScope || readsScope rest

end

def ScopeFree (f : Row → Scope → List Outcome) : Prop :=
  ∀ row scope scope', (f row scope).map (Except.map Prod.fst) = (f row scope').map (Except.map Prod.fst)

theorem map_fst_andThen {f : Row → Scope → List Outcome} (hf : ScopeFree f) (as : List Outcome) :
    (andThen as f).map (Except.map Prod.fst) = (as.map (Except.map Prod.fst)).flatMap fun
      | .ok row => (f row ∅).map (Except.map Prod.fst)
      | .error e => [.error e] := by
  rw [andThen, List.map_flatMap, List.flatMap_map]
  refine congrArg as.flatMap (funext fun x ↦ ?_)
  rcases x with e | ⟨row, scope⟩
  · rfl
  · exact hf row scope ∅

theorem ScopeFree.andThen {f g : Row → Scope → List Outcome} (hf : ScopeFree f) (hg : ScopeFree g) :
    ScopeFree fun row scope ↦ RowProduct.andThen (f row scope) g := by
  intro row scope scope'
  rw [map_fst_andThen hg, map_fst_andThen hg, hf row scope scope']

theorem Column.scopeFree_outcomes {c : Column} (h : c.readsScope = false) : ScopeFree c.outcomes := by
  obtain ⟨name, source⟩ := c
  cases source with
  | computed f => cases h
  | values vs =>
    intro row scope scope'
    simp only [Column.outcomes, Column.resolve, pure, List.map_map]
    rfl

theorem ColumnBlock.scopeFree_outcomes {block : ColumnBlock} (h : block.any Column.readsScope = false) :
    ScopeFree (ColumnBlock.outcomes block) := by
  induction block with
  | nil => exact fun row scope scope' ↦ rfl
  | cons c block ih =>
    obtain ⟨hc, hblock⟩ := Bool.or_eq_false_iff.1 h
    exact (c.scopeFree_outcomes hc).andThen (ih hblock)

theorem scopeFree_mergeOutcomes (entries : List Value) :
    ScopeFree fun row scope ↦ mergeOutcomes none row scope entries := by
  intro row scope scope'
  simp only [mergeOutcomes, List.map_flatMap]
  refine congrArg entries.zipIdx.flatMap (funext fun entry ↦ ?_)
  obtain ⟨v, index⟩ := entry
  cases v <;> rfl

mutual

theorem Step.scopeFree_outcomes : ∀ {step : Step Empty}, step.readsScope = false → ScopeFree step.outcomes
  | .columns [], _ => fun _ _ _ ↦ rfl
  | .columns (_ :: _), h => ColumnBlock.scopeFree_outcomes h
  | .dataset entries, _ => scopeFree_mergeOutcomes entries
  | .unrecognized _, _ => fun _ _ _ ↦ rfl
  | .column _, h => Column.scopeFree_outcomes h
  | .merge entries none, _ => scopeFree_mergeOutcomes entries
  | .filter test, _ => by
    intro row scope scope'
    rw [Step.outcomes, Step.outcomes]
    split <;> rfl
  | .group column steps, h => by
    intro row scope scope'
    have hnested : reference ∅ scope steps = reference ∅ scope' steps := scopeFree_outcomes h ∅ scope scope'
    rw [Step.outcomes_group, Step.outcomes_group, hnested]
    split <;> rfl
  | .select _, _ => fun _ _ _ ↦ rfl
  | .discard _, _ => fun _ _ _ ↦ rfl
  | .operator op, _ => op.elim

theorem scopeFree_outcomes : ∀ {steps : List (Step Empty)}, readsScope steps = false → ScopeFree (outcomes steps)
  | [], _ => fun _ _ _ ↦ rfl
  | _ :: _, h =>
    have hsteps := Bool.or_eq_false_iff.1 h
    (Step.scopeFree_outcomes hsteps.1).andThen (scopeFree_outcomes hsteps.2)

end

/-- A program in which nothing looks at the scope, at any depth, gives the same from every scope. -/
theorem enumerate_any_scope {steps : List (Step Empty)} (h : readsScope steps = false) (row : Row)
    (scope scope' : Scope) (n : Nat) :
    (enumerate row scope steps).given n = (enumerate row scope' steps).given n := by
  have hreference : reference row scope steps = reference row scope' steps := scopeFree_outcomes h row scope scope'
  rw [given_enumerate, given_enumerate, items_trace, items_trace, hreference]

theorem given_any_scope_group :
    let steps : List (Step Empty) :=
      [.column ⟨"a", .values [.null, .bool true]⟩,
        .group "g" [.columns [⟨"b", .values [.null]⟩], .select ["x", "b"]],
        .filter fun row ↦ return row.contains "g", .discard ["a"], .dataset [.object [("a", .null)], .null]]
    let scope : Scope := .ofList [("x", .null), ("a", .bool false)]
    readsScope steps = false ∧
      ∀ n, (enumerate ∅ ∅ steps).given n = (enumerate ∅ scope steps).given n := by
  intro steps scope
  have hsteps : readsScope steps = false := rfl
  exact ⟨hsteps, enumerate_any_scope hsteps ∅ ∅ scope⟩

end RowProduct
