import RowProduct.Proofs.Polling
import RowProduct.Proofs.Visits

namespace RowProduct

open Traversal Feed

variable {Ω : Type}

mutual

def Step.lift : Step Empty → Step Ω
  | .columns block => .columns block
  | .dataset entries => .dataset entries
  | .unrecognized v => .unrecognized v
  | .column c => .column c
  | .merge entries test => .merge entries test
  | .filter test => .filter test
  | .group column steps => .group column (liftAll steps)
  | .select names => .select names
  | .discard names => .discard names
  | .operator op => op.elim

def liftAll : List (Step Empty) → List (Step Ω)
  | [] => []
  | step :: rest => step.lift :: liftAll rest

end

theorem Step.kind_lift [Operators Ω] (step : Step Empty) : (step.lift : Step Ω).kind = step.kind := by
  cases step with
  | operator op => exact op.elim
  | _ => rfl

theorem length_liftAll (steps : List (Step Empty)) : (liftAll steps : List (Step Ω)).length = steps.length := by
  induction steps with
  | nil => rfl
  | cons step rest ih => exact congrArg (· + 1) ih

mutual

theorem Step.lift_self : ∀ step : Step Empty, step.lift = step
  | .columns _ | .dataset _ | .unrecognized _ | .column _ | .merge _ _ | .filter _ | .select _
  | .discard _ => rfl
  | .group column steps => congrArg (Step.group column) (liftAll_self steps)
  | .operator op => op.elim

theorem liftAll_self : ∀ steps : List (Step Empty), liftAll steps = steps
  | [] => rfl
  | step :: rest => by rw [liftAll, step.lift_self, liftAll_self rest]

end

/-- The traversal goes through visits in their order: it reports the events, takes the branches to `next`
and fails with the first error; without one it comes to `after`. -/
inductive Traversal.Replays (next : Continuation) (after : Unit → Traversal) : Traversal → List Visit → Prop
  | nil : Replays next after (after ()) []
  | report {events : List Event} {t : Unit → Traversal} {vs : List Visit} :
      Replays next after (t ()) vs → Replays next after (.report events t) (events.map .event ++ vs)
  | branch {row : Row} {scope : Scope} {t : Unit → Traversal} {vs : List Visit} :
      Replays next after (t ()) vs →
      Replays next after (next row scope t) (.outcome (.ok (row, scope)) :: vs)
  | fail {e : Error} {vs : List Visit} : Replays next after (fail e) (.outcome (.error e) :: vs)

namespace Traversal.Replays

variable {next further : Continuation} {after between : Unit → Traversal} {t : Traversal}
variable {vs ws : List Visit}

theorem one (row : Row) (scope : Scope) :
    Replays next after (next row scope after) [.outcome (.ok (row, scope))] := .branch .nil

theorem trans (h : Replays next between t vs) (h' : Replays next after (between ()) ws) :
    Replays next after t (vs ++ ws) := by
  induction h with
  | nil => exact h'
  | report _ ih =>
    rw [List.append_assoc]
    exact .report ih
  | branch _ ih => exact .branch ih
  | fail => exact .fail

theorem andThen {f : Row → Scope → List Visit} (h : Replays next after t vs)
    (hf : ∀ row scope between, Replays further between (next row scope between) (f row scope)) :
    Replays further after t (Visit.andThen vs f) := by
  induction h with
  | nil => exact .nil
  | @report events t vs _ ih =>
    have he : Visit.andThen (events.map .event ++ vs) f = events.map .event ++ Visit.andThen vs f := by
      simp [Visit.andThen, List.flatMap_map, ← List.map_eq_flatMap]
    rw [he]
    exact .report ih
  | branch _ ih => exact (hf _ _ _).trans ih
  | fail => exact .fail

theorem event {e : Event} {t : Unit → Traversal} (h : Replays next after (t ()) vs) :
    Replays next after (.report [e] t) (.event e :: vs) := .report h

theorem perform {α : Type} {action : Unit → Traced α} {use : α → Traversal}
    (h : Replays next after (use (action ()).value) vs) :
    Replays next after (perform action use) ((action ()).events.map .event ++ vs) :=
  @Replays.report _ _ [] _ _ (.report h)

end Traversal.Replays

section

variable (next : Continuation) (row : Row) (scope : Scope) (after : Unit → Traversal)

theorem Column.expand_replays (c : Column) :
    Replays next after (c.expand next row scope after) (c.visits row scope) := by
  refine .perform ?_
  rw [Column.outcomes]
  cases (c.resolve scope).value with
  | error e => exact .fail
  | ok values =>
    dsimp only
    induction values with
    | nil => exact .nil
    | cons v values ih => exact .branch ih

theorem ColumnBlock.expand_replays (remaining : Nat) (block : ColumnBlock) :
    Replays next after (ColumnBlock.expand remaining next block row scope after)
      (ColumnBlock.visits remaining block row scope) := by
  induction block generalizing row scope after with
  | nil => exact .one row scope
  | cons c block ih =>
    have h := c.expand_replays (ColumnBlock.expand remaining next block) row scope after
    exact .event (h.andThen fun row scope between ↦ ih row scope between)

theorem mergeFrom_replays (test : Option EntryTest) (index : Nat) (entries : List Value) :
    Replays next after (mergeFrom test next row scope after index entries)
      ((entries.zipIdx index).flatMap (entryVisits test row scope)) := by
  induction entries generalizing index with
  | nil => exact .nil
  | cons v entries ih =>
    have hrest := ih (index + 1)
    rw [List.zipIdx_cons, List.flatMap_cons]
    cases v with
    | object entry =>
      have hgo : Replays next after
          (next (row.overlay entry) (scope.overlay entry) fun _ ↦
            mergeFrom test next row scope after (index + 1) entries)
          (.outcome (.ok (row.overlay entry, scope.overlay entry)) ::
            (entries.zipIdx (index + 1)).flatMap (entryVisits test row scope)) := .branch hrest
      cases test with
      | none => exact hgo
      | some test =>
        rw [mergeFrom, entryVisits, List.append_assoc]
        refine .perform ?_
        rw [entryOutcomes, Option.all_some]
        split
        · exact hgo
        · exact hrest
    | _ => exact .event .fail

end

def Continuation.give : Continuation := fun row _ after ↦ .item (.ok row) after

theorem Visit.gathered_events (use : List Row → List Visit) (events : List Event) (vs : List Visit) :
    gathered use (events.map .event ++ vs) = events.map .event ++ gathered use vs := by
  induction events with
  | nil => rfl
  | cons e events ih => exact congrArg (event e :: ·) ih

theorem Traversal.Replays.gather {next : Continuation} {after : Unit → Traversal} {t : Traversal}
    {vs : List Visit} (h : Replays .give (fun _ ↦ .done) t vs) {use : List Row → Traversal}
    {f : List Row → List Visit} (hf : ∀ rows, Replays next after (use rows) (f rows)) (seen : List Row) :
    Replays next after (t.gather use seen) (Visit.gathered (fun rows ↦ f (seen.reverse ++ rows)) vs) := by
  induction h generalizing seen with
  | nil =>
    change Replays next after (use seen.reverse) (f (seen.reverse ++ []))
    rw [List.append_nil]
    exact hf seen.reverse
  | report _ ih =>
    rw [Visit.gathered_events]
    exact .report (ih seen)
  | @branch row scope t vs _ ih =>
    have hrow := ih (row :: seen)
    simp only [List.reverse_cons, List.append_assoc, List.singleton_append] at hrow
    exact @Replays.report _ _ [] _ _ hrow
  | fail => exact .fail

mutual

theorem Step.expand_replays [Operators Ω] (rest : List (Step Ω)) (next : Continuation) :
    ∀ (step : Step Empty) (row : Row) (scope : Scope) (after : Unit → Traversal),
      Replays next after ((step.lift : Step Ω).expand rest next row scope after)
        (step.visits rest.length row scope)
  | .columns [], _, _, _ => .fail
  | .columns (c :: block), row, scope, after =>
    ColumnBlock.expand_replays next row scope after rest.length (c :: block)
  | .dataset entries, row, scope, after => .event (mergeFrom_replays next row scope after none 0 entries)
  | .unrecognized _, _, _, _ => .fail
  | .column c, row, scope, after => c.expand_replays next row scope after
  | .merge entries test, row, scope, after => mergeFrom_replays next row scope after test 0 entries
  | .filter test, row, scope, after => by
    rw [Step.lift, Step.expand, Step.visits]
    refine .perform ?_
    split
    · exact .one row scope
    · exact .nil
  | .group column steps, row, scope, after => by
    have hnested := expandAll_replays ([] : List (Step Ω)) steps ∅ scope fun _ ↦ .done
    rw [List.append_nil] at hnested
    let finished (rows : List Row) := row.insert column (.array (rows.map Record.toValue))
    have hfinished (rows : List Row) :
        Replays next after
          (.report [.grouped column rows.length] fun _ ↦ next (finished rows) scope after)
          [.event (.grouped column rows.length), .outcome (.ok (finished rows, scope))] :=
      .event (.one (finished rows) scope)
    exact hnested.gather hfinished []
  | .select _, _, _, _ => .one _ _
  | .discard _, _, _, _ => .one _ _
  | .operator op, _, _, _ => op.elim

theorem expandAll_replays [Operators Ω] (rest : List (Step Ω)) :
    ∀ (steps : List (Step Empty)) (row : Row) (scope : Scope) (after : Unit → Traversal),
      Replays (expandAll rest) after (expandAll (liftAll steps ++ rest) row scope after)
        (visits rest.length steps row scope)
  | [], row, scope, _ => .one row scope
  | step :: steps, row, scope, after => by
    have hlength : steps.length + rest.length = (liftAll steps ++ rest).length := by
      rw [List.length_append, length_liftAll]
    have hstep := Step.expand_replays (liftAll steps ++ rest) (expandAll (liftAll steps ++ rest)) step
      row scope after
    have h := hstep.andThen fun row scope between ↦ expandAll_replays rest steps row scope between
    rw [visits, hlength, ← @Step.kind_lift Ω, liftAll, List.cons_append, expandAll]
    exact .event h

end

namespace Feed

def chain (run : Row → Scope → Feed) : List Outcome → Feed
  | [] => nothing
  | .ok (row, scope) :: branches => follow (run row scope) (chain run branches)
  | .error e :: _ => once (.error e)

theorem chain_append (run : Row → Scope → Feed) (as bs : List Outcome) :
    chain run (as ++ bs) = follow (chain run as) (chain run bs) := by
  induction as with
  | nil => exact (nothing_follow _).symm
  | cons a as ih =>
    cases a with
    | error e => exact (once_error_follow e _).symm
    | ok b => rw [List.cons_append, chain, ih, chain, follow_assoc]

theorem chain_follow_nothing (run : Row → Scope → Feed) (as : List Outcome) :
    follow (chain run as) nothing = chain run as := by
  simpa [chain, nothing_follow] using (chain_append run as []).symm

end Feed

def Continuation.Gives (next : Continuation) (run : Row → Scope → Feed) : Prop :=
  ∀ row scope after, (next row scope after).given = follow (run row scope) (after ()).given

theorem Traversal.Replays.given_chain {next : Continuation} {run : Row → Scope → Feed}
    {after : Unit → Traversal} {t : Traversal} {vs : List Visit} (h : Replays next after t vs)
    (hnext : next.Gives run) : t.given = follow (chain run (vs.filterMap Visit.outcome?)) (after ()).given := by
  induction h with
  | nil => exact (nothing_follow _).symm
  | report _ ih => rw [given_report, ih, Visit.filterMap_events]
  | @branch row scope t vs _ ih =>
    have hvs : (Visit.outcome (.ok (row, scope)) :: vs).filterMap Visit.outcome? =
      .ok (row, scope) :: vs.filterMap Visit.outcome? := rfl
    rw [hnext, hvs, chain, follow_assoc, ih]
  | @fail e vs =>
    have hvs : (Visit.outcome (.error e) :: vs).filterMap Visit.outcome? =
      .error e :: vs.filterMap Visit.outcome? := rfl
    rw [given_fail, hvs, chain, once_error_follow]

end RowProduct
