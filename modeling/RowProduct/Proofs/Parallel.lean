import Mathlib.Data.List.Forall2
import RowProduct.Proofs.Checkpoint

namespace RowProduct

open Traversal Feed

inductive Alike (Q : Row → Row → Scope → Prop) : Outcome → Outcome → Prop
  | error (e : Error) : Alike Q (.error e) (.error e)
  | branch {row row' : Row} {scope : Scope} :
      Q row row' scope → Alike Q (.ok (row, scope)) (.ok (row', scope))

def Step.narrows : Step Empty → Bool
  | .filter _ | .select _ | .discard _ => true
  | _ => false

/-- The step takes branches that belong together to as many others that do. -/
def Step.Keeps (Q : Row → Row → Scope → Prop) (step : Step Empty) : Prop :=
  ∀ row row' scope, Q row row' scope →
    List.Forall₂ (Alike Q) (step.outcomes row scope) (step.outcomes row' scope)

/-- Rows that belong together still do when they take on the same value or object, and their scope with them; in a
group it is the rows alone that take on a value. -/
structure Parallel (Q : Row → Row → Scope → Prop) : Prop where
  insert {row row' : Row} {scope : Scope} (name : String) (v : Value) :
    Q row row' scope → Q (row.insert name v) (row'.insert name v) (scope.insert name v)
  overlay {row row' : Row} {scope : Scope} (top : Fields) :
    Q row row' scope → Q (row.overlay top) (row'.overlay top) (scope.overlay top)
  group {row row' : Row} {scope : Scope} (name : String) (v : Value) :
    Q row row' scope → Q (row.insert name v) (row'.insert name v) scope

variable {Q : Row → Row → Scope → Prop} {row row' : Row} {scope : Scope}

theorem forall₂_andThen {as bs : List Outcome} (h : List.Forall₂ (Alike Q) as bs)
    {f : Row → Scope → List Outcome}
    (hf : ∀ row row' scope, Q row row' scope → List.Forall₂ (Alike Q) (f row scope) (f row' scope)) :
    List.Forall₂ (Alike Q) (andThen as f) (andThen bs f) := by
  refine List.rel_flatMap h fun a b hab ↦ ?_
  cases hab with
  | error e => exact .cons (.error e) .nil
  | branch hrows => exact hf _ _ _ hrows

theorem forall₂_single (h : Q row row' scope) :
    List.Forall₂ (Alike Q) [.ok (row, scope)] [.ok (row', scope)] :=
  .cons (.branch h) .nil

namespace Parallel

variable (hQ : Parallel Q)
include hQ

theorem column (c : Column) (h : Q row row' scope) :
    List.Forall₂ (Alike Q) (c.outcomes row scope) (c.outcomes row' scope) := by
  rw [Column.outcomes, Column.outcomes]
  cases (c.resolve scope).value with
  | error e => exact .cons (.error e) .nil
  | ok values =>
    refine List.forall₂_map_left_iff.2 (List.forall₂_map_right_iff.2 (List.forall₂_same.2 ?_))
    intro v _
    exact .branch (hQ.insert c.name v h)

theorem block (block : ColumnBlock) (h : Q row row' scope) :
    List.Forall₂ (Alike Q) (ColumnBlock.outcomes block row scope) (ColumnBlock.outcomes block row' scope) := by
  induction block generalizing row row' scope with
  | nil => exact forall₂_single h
  | cons c block ih => exact forall₂_andThen (hQ.column c h) fun _ _ _ hrows ↦ ih hrows

theorem entry (test : Option EntryTest) (entry : Value × Nat) (h : Q row row' scope) :
    List.Forall₂ (Alike Q) (entryOutcomes test row scope entry) (entryOutcomes test row' scope entry) := by
  obtain ⟨v, index⟩ := entry
  cases v with
  | object top =>
    rw [entryOutcomes, entryOutcomes]
    split
    · exact forall₂_single (hQ.overlay top h)
    · exact .nil
  | _ => exact .cons (.error _) .nil

theorem merge (test : Option EntryTest) (entries : List Value) (h : Q row row' scope) :
    List.Forall₂ (Alike Q) (mergeOutcomes test row scope entries) (mergeOutcomes test row' scope entries) := by
  have hentries : List.Forall₂ Eq entries.zipIdx entries.zipIdx := List.forall₂_same.2 fun _ _ ↦ rfl
  refine List.rel_flatMap hentries fun entry entry' heq ↦ ?_
  cases heq
  exact hQ.entry test entry h

theorem keeps {step : Step Empty} (hstep : ¬ step.narrows) : step.Keeps Q := by
  intro row row' scope h
  cases step with
  | columns block =>
    cases block with
    | nil => exact .cons (.error _) .nil
    | cons c block => exact hQ.block (c :: block) h
  | dataset entries => exact hQ.merge none entries h
  | unrecognized v => exact .cons (.error _) .nil
  | column c => exact hQ.column c h
  | merge entries test => exact hQ.merge test entries h
  | group name steps =>
    -- The nested program starts from the empty row on both sides.
    rw [Step.outcomes, Step.outcomes]
    split
    · exact forall₂_single (hQ.group name _ h)
    · exact .cons (.error _) .nil
  | filter test => exact absurd rfl hstep
  | select names => exact absurd rfl hstep
  | discard names => exact absurd rfl hstep
  | operator op => exact op.elim

end Parallel

theorem outcomes_alike {steps : List (Step Empty)} (hsteps : ∀ step ∈ steps, step.Keeps Q)
    (h : Q row row' scope) :
    List.Forall₂ (Alike Q) (outcomes steps row scope) (outcomes steps row' scope) := by
  induction steps generalizing row row' scope with
  | nil => exact forall₂_single h
  | cons step rest ih =>
    obtain ⟨hstep, hrest⟩ := List.forall_mem_cons.1 hsteps
    exact forall₂_andThen (hstep row row' scope h) fun _ _ _ hrows ↦ ih hrest hrows

theorem reference_alike {steps : List (Step Empty)} (hsteps : ∀ step ∈ steps, step.Keeps Q)
    {f g : Row → Row} (hfg : ∀ row row' scope, Q row row' scope → f row = g row') (h : Q row row' scope) :
    (reference row scope steps).map (Except.map f) = (reference row' scope steps).map (Except.map g) := by
  have heq : List.Forall₂ Eq ((reference row scope steps).map (Except.map f))
      ((reference row' scope steps).map (Except.map g)) := by
    simp only [reference, List.map_map, List.forall₂_map_left_iff, List.forall₂_map_right_iff]
    refine (outcomes_alike hsteps h).imp fun a b hab ↦ ?_
    cases hab with
    | error e => rfl
    | branch hrows => exact congrArg Except.ok (hfg _ _ _ hrows)
  rwa [List.forall₂_eq_eq_eq] at heq

theorem given_map (f : Row → Row) (row : Row) (scope : Scope) (steps : List (Step Empty)) (n : Nat) :
    ((enumerate row scope steps).given n).map (Except.map f) =
      (cut ((reference row scope steps).map (Except.map f)))[n]? := by
  rw [given_enumerate, items_trace, cut_map, List.getElem?_map]

theorem given_alike {steps : List (Step Empty)} (hsteps : ∀ step ∈ steps, step.Keeps Q) {f g : Row → Row}
    (hfg : ∀ row row' scope, Q row row' scope → f row = g row') (h : Q row row' scope) (n : Nat) :
    ((enumerate row scope steps).given n).map (Except.map f) =
      ((enumerate row' scope steps).given n).map (Except.map g) := by
  rw [given_map, given_map, reference_alike hsteps hfg h]

theorem parallel_frame (base : Row) : Parallel fun row row' _ ↦ row = base.overlay row'.fields where
  insert name v h := by rw [h, Record.overlay_insert]
  overlay top h := by rw [h, Record.overlay_overlay]
  group name v h := by rw [h, Record.overlay_insert]

theorem reference_frame (row : Row) (scope : Scope) {steps : List (Step Empty)}
    (hsteps : ∀ step ∈ steps, ¬ step.narrows) :
    reference row scope steps = (reference ∅ scope steps).map (Except.map fun d ↦ row.overlay d.fields) := by
  have hkeeps (step : Step Empty) (hstep : step ∈ steps) := (parallel_frame row).keeps (hsteps step hstep)
  have hself : row = row.overlay (∅ : Row).fields := rfl
  have h : (reference row scope steps).map (Except.map id) =
      (reference ∅ scope steps).map (Except.map fun d ↦ row.overlay d.fields) :=
    reference_alike hkeeps (fun _ _ _ h ↦ h) hself
  have hid : (Except.map id : Item → Item) = id := funext fun x ↦ by cases x <;> rfl
  rwa [hid, List.map_id] at h

/-- Steps that take nothing away read the scope and never the row: from any row they give what they give from
the empty one, laid over that row. -/
theorem enumerate_frame (row : Row) (scope : Scope) {steps : List (Step Empty)}
    (hsteps : ∀ step ∈ steps, ¬ step.narrows) (n : Nat) :
    (enumerate row scope steps).given n =
      ((enumerate ∅ scope steps).given n).map (Except.map fun d ↦ row.overlay d.fields) := by
  rw [given_map, ← reference_frame row scope hsteps, given_enumerate, items_trace]

theorem given_frame_rewritten :
    let base : Row := .ofList [("a", .null), ("b", .null)]
    let steps : List (Step Empty) :=
      [.column ⟨"c", .values [.null, .bool true]⟩, .dataset [.object [("b", .bool true), ("a", .bool false)]],
        .group "a" [.select ["b"]]]
    (∀ step ∈ steps, ¬ step.narrows) ∧
      ∀ n, (enumerate base ∅ steps).given n =
        ((enumerate ∅ ∅ steps).given n).map (Except.map fun d ↦ base.overlay d.fields) := by
  intro base steps
  have hsteps : ∀ step ∈ steps, ¬ step.narrows := by simp [steps, Step.narrows]
  exact ⟨hsteps, enumerate_frame base ∅ hsteps⟩

end RowProduct
