import RowProduct.Proofs.Replay

namespace RowProduct

open Traversal Feed

variable {Ω : Type}

namespace Traversal

/-- The same traversal up to its end, with something else to come after that. -/
def continuedBy (tail : Traversal) : Traversal → Traversal
  | .done => .pause fun _ ↦ tail
  | .item (.ok row) next => .item (.ok row) fun _ ↦ continuedBy tail (next ())
  | .item (.error e) _ => .item (.error e) fun _ ↦ tail
  | .pause _ => .pause fun _ ↦ tail
  | .report events next => .report events fun _ ↦ continuedBy tail (next ())
  | .endless rows start => .endless rows start

theorem append_continuedBy (tail t : Traversal) (after : Unit → Traversal) :
    (continuedBy tail t).append after = t.append after := by
  induction t with
  | done => rfl
  | item x next ih =>
    cases x with
    | error e => rfl
    | ok row => exact congrArg (item (.ok row)) (funext fun _ ↦ ih ())
  | pause next ih => rfl
  | report events next ih => exact congrArg (report events) (funext fun _ ↦ ih ())
  | endless rows start => rfl

theorem append_gather (use : List Row → Traversal) (after : Unit → Traversal) (rows : List Row)
    (t : Traversal) :
    (t.gather use rows).append after = t.gather (fun rows ↦ (use rows).append after) rows := by
  induction t generalizing rows with
  | done => rfl
  | item x next ih =>
    cases x with
    | error e => rfl
    | ok row => exact congrArg (report []) (funext fun _ ↦ ih () (row :: rows))
  | pause next ih => rfl
  | report events next ih => exact congrArg (report events) (funext fun _ ↦ ih () rows)
  | endless rows' start => rfl

end Traversal

/-- What comes after a branch has no influence on the branch itself. -/
def Continuation.Sequential (next : Continuation) : Prop :=
  ∀ row scope after, next row scope after = (next row scope fun _ ↦ .done).append after

theorem branches_sequential {α : Type} {branch : α → (Unit → Traversal) → Traversal}
    (h : ∀ a after, branch a after = (branch a fun _ ↦ .done).append after) (as : List α)
    (after : Unit → Traversal) :
    branches branch as after = (branches branch as fun _ ↦ .done).append after := by
  induction as with
  | nil => rfl
  | cons a as ih =>
    calc branches branch (a :: as) after
        = (branch a fun _ ↦ .done).append fun _ ↦ branches branch as after := h a _
      _ = (branch a fun _ ↦ .done).append fun _ ↦ (branches branch as fun _ ↦ .done).append after := by
          rw [ih]
      _ = ((branch a fun _ ↦ .done).append fun _ ↦ branches branch as fun _ ↦ .done).append after := by
          rw [append_assoc]
      _ = (branches branch (a :: as) fun _ ↦ .done).append after := by
          rw [← h a fun _ ↦ branches branch as fun _ ↦ .done]
          rfl

theorem append_perform {α : Type} (action : Unit → Traced α) (use : α → Traversal)
    (after : Unit → Traversal) :
    (perform action use).append after = perform action fun a ↦ (use a).append after := rfl

section

variable {next : Continuation} (h : next.Sequential)
include h

theorem Column.expand_sequential (c : Column) : (c.expand next).Sequential := by
  intro row scope after
  rw [Column.expand, Column.expand, append_perform]
  refine congrArg (perform _) (funext fun resolved ↦ ?_)
  cases resolved with
  | error e => rfl
  | ok values => exact branches_sequential (fun v ↦ h _ _) values after

theorem ColumnBlock.expand_sequential (remaining : Nat) (block : ColumnBlock) :
    (ColumnBlock.expand remaining next block).Sequential := by
  induction block with
  | nil => exact h
  | cons c block ih =>
    intro row scope after
    refine congrArg (report _) (funext fun _ ↦ ?_)
    exact c.expand_sequential ih row scope after

theorem mergeFrom_sequential (test : Option EntryTest) (row : Row) (scope : Scope)
    (after : Unit → Traversal) (index : Nat) (entries : List Value) :
    mergeFrom test next row scope after index entries =
      (mergeFrom test next row scope (fun _ ↦ .done) index entries).append after := by
  induction entries generalizing index with
  | nil => rfl
  | cons v entries ih =>
    have hrest := ih (index + 1)
    cases v with
    | object entry =>
      have hgo : next (row.overlay entry) (scope.overlay entry)
            (fun _ ↦ mergeFrom test next row scope after (index + 1) entries) =
          (next (row.overlay entry) (scope.overlay entry) fun _ ↦
            mergeFrom test next row scope (fun _ ↦ .done) (index + 1) entries).append after := by
        rw [h, h _ _ fun _ ↦ mergeFrom test next row scope (fun _ ↦ .done) (index + 1) entries,
          append_assoc, hrest]
      cases test with
      | none => exact hgo
      | some test =>
        rw [mergeFrom, mergeFrom, append_perform]
        refine congrArg (perform _) (funext fun passes ↦ ?_)
        cases passes with
        | true => exact hgo
        | false => exact hrest
    | _ => rfl

variable [Operators Ω]

theorem Step.expand_sequential (rest : List (Step Ω)) (step : Step Ω) :
    (step.expand rest next).Sequential := by
  intro row scope after
  cases step with
  | columns block =>
    cases block with
    | nil => rfl
    | cons c block => exact ColumnBlock.expand_sequential h rest.length (c :: block) row scope after
  | dataset entries =>
    exact congrArg (report _) (funext fun _ ↦ mergeFrom_sequential h none row scope after 0 entries)
  | unrecognized v => rfl
  | column c => exact c.expand_sequential h row scope after
  | merge entries test => exact mergeFrom_sequential h test row scope after 0 entries
  | filter test =>
    simp only [Step.expand, append_perform]
    refine congrArg (perform _) (funext fun passes ↦ ?_)
    cases passes with
    | true => exact h row scope after
    | false => rfl
  | group column steps =>
    simp only [Step.expand, append_gather]
    refine congrArg (gather · [] _) (funext fun rows ↦ ?_)
    exact congrArg (report _) (funext fun _ ↦ h _ _ after)
  | select names => exact h _ _ after
  | discard names => exact h _ _ after
  | operator op => simp only [Step.expand, append_assoc]; rfl

end

@[reducible]
def Operators.continuedBy [Operators Ω]
    (tail : Ω → Row → Scope → List (Step Ω) → (Row → Scope → Traversal) → Traversal) : Operators Ω where
  kind := Operators.kind
  traverse op row scope rest run :=
    Traversal.continuedBy (tail op row scope rest run) (Operators.traverse op row scope rest run)

section

variable [Operators Ω]
variable (tail : Ω → Row → Scope → List (Step Ω) → (Row → Scope → Traversal) → Traversal)

theorem kind_continuedBy (step : Step Ω) :
    @Step.kind Ω (Operators.continuedBy tail) step = step.kind := by
  cases step <;> rfl

mutual

theorem Step.expand_continuedBy (rest : List (Step Ω)) (next : Continuation) :
    ∀ step : Step Ω, @Step.expand Ω (Operators.continuedBy tail) rest next step = step.expand rest next
  | .columns [] | .columns (_ :: _) | .dataset _ | .unrecognized _ | .column _ | .merge _ _
  | .filter _ | .select _ | .discard _ => by simp only [Step.expand]
  | .group column steps => by
    have hsteps := expandAll_continuedBy steps
    simp only [Step.expand, hsteps]
  | .operator op => funext fun _ ↦ funext fun _ ↦ funext fun after ↦ append_continuedBy _ _ after

theorem expandAll_continuedBy :
    ∀ steps : List (Step Ω), @expandAll Ω (Operators.continuedBy tail) steps = expandAll steps
  | [] => rfl
  | step :: rest => by
    have hrest := expandAll_continuedBy rest
    have hstep := Step.expand_continuedBy rest (expandAll rest) step
    simp only [expandAll, hrest, hstep, kind_continuedBy]

end

theorem enumerate_continuedBy (row : Row) (scope : Scope) (steps : List (Step Ω)) :
    @enumerate Ω (Operators.continuedBy tail) row scope steps = enumerate row scope steps :=
  congrFun (congrFun (congrFun (expandAll_continuedBy tail steps) row) scope) _

end

section

variable [Operators Ω]

theorem expandAll_sequential (steps : List (Step Ω)) : (expandAll steps).Sequential := by
  induction steps with
  | nil => exact fun row scope after ↦ rfl
  | cons step rest ih =>
    intro row scope after
    exact congrArg (report _) (funext fun _ ↦ step.expand_sequential ih rest row scope after)

theorem enumerate_append_done (row : Row) (scope : Scope) (steps : List (Step Ω)) :
    (enumerate row scope steps).append (fun _ ↦ .done) = enumerate row scope steps :=
  (expandAll_sequential steps row scope fun _ ↦ .done).symm

theorem expandAll_gives (steps : List (Step Ω)) :
    (expandAll steps).Gives fun row scope ↦ (enumerate row scope steps).given := by
  intro row scope after
  rw [expandAll_sequential steps row scope after, given_append]
  rfl

theorem given_enumerate_cons (row : Row) (scope : Scope) (step : Step Ω) (steps : List (Step Ω)) :
    (enumerate row scope (step :: steps)).given =
      (step.expand steps (expandAll steps) row scope fun _ ↦ .done).given := by
  rw [enumerate, expandAll]
  exact given_report _ _

theorem given_enumerate_untilEnd (row : Row) (scope : Scope) (steps : List (Step Ω)) :
    (enumerate row scope steps).given = untilEnd (enumerate row scope steps).given := by
  rw [← follow_nothing, ← given_done]
  exact expandAll_gives steps row scope fun _ ↦ .done

theorem given_enumerate_group {row : Row} {scope : Scope} {column : String} {nested steps : List (Step Ω)}
    {rows : List Row} {e : Option Error} (h : EndsAfter e rows (enumerate ∅ scope nested).given) :
    (enumerate row scope (.group column nested :: steps)).given =
      e.elim (enumerate (row.insert column (.array (rows.map Record.toValue))) scope steps).given
        fun e ↦ once (.error e) := by
  rw [given_enumerate_cons]
  refine (given_gather h _ []).trans ?_
  rw [given_report]
  rfl

theorem given_enumerate_lift (row : Row) (scope : Scope) (step : Step Empty) (steps : List (Step Ω)) :
    (enumerate row scope (step.lift :: steps)).given =
      chain (fun row scope ↦ (enumerate row scope steps).given) (step.outcomes row scope) := by
  have h := Step.expand_replays steps (expandAll steps) step row scope fun _ ↦ .done
  rw [given_enumerate_cons, h.given_chain (expandAll_gives steps), Step.outcomes_visits, given_done,
    chain_follow_nothing]

/-- The stream of a program with operators of any kind gives some rows, then at most one error, then nothing
for ever. -/
theorem enumerate_fuses (row : Row) (scope : Scope) (steps : List (Step Ω)) :
    (∀ m n, m < n → ¬ isRow ((enumerate row scope steps).given m) →
      (enumerate row scope steps).given n = none) ∧
    -- Operators may answer their polls in any way.
    (∀ answers : Nat → Traced (Option Item), ∃ t : Traversal, t.Answers answers) ∧
    -- The stream of an operator is passed on up to its end, and is not polled after that.
    (∀ op, (enumerate row scope (.operator op :: steps)).given =
      untilEnd (Operators.traverse op row scope steps fun row scope ↦ enumerate row scope steps).given) ∧
    (∀ tail, @enumerate Ω (Operators.continuedBy tail) row scope steps = enumerate row scope steps) ∧
    -- A none ends a branch of a step, and the next branch follows; an error ends all of them.
    (∀ step : Step Empty, (enumerate row scope (step.lift :: steps)).given =
      chain (fun row scope ↦ (enumerate row scope steps).given) (step.outcomes row scope)) ∧
    -- A none ends the nested run of a group, which holds the rows before it.
    (∀ column nested rows e, EndsAfter e rows (enumerate ∅ scope nested).given →
      (enumerate row scope (.group column nested :: steps)).given =
        e.elim (enumerate (row.insert column (.array (rows.map Record.toValue))) scope steps).given
          fun e ↦ once (.error e)) := by
  refine ⟨fun m n hmn hm ↦ ?_, exists_answers, fun op ↦ ?_,
    fun tail ↦ enumerate_continuedBy tail row scope steps,
    fun step ↦ given_enumerate_lift row scope step steps,
    fun column nested rows e h ↦ given_enumerate_group h⟩
  · rw [given_enumerate_untilEnd] at hm ⊢
    exact untilEnd_eq_none hmn hm
  · rw [given_enumerate_cons, ← follow_nothing, ← given_done]
    exact given_append _ _

end

end RowProduct
