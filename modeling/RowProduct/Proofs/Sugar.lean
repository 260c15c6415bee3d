import RowProduct.Proofs.DepthFirst

namespace RowProduct

open Traversal

def Event.isDispatch : Event → Bool
  | .dispatch _ _ _ _ => true
  | _ => false

def Step.rewritten : Step Empty → List (Step Empty)
  | .columns (c :: block) => (c :: block).map .column
  | .dataset entries => [.forEach entries]
  | step => [step]

mutual

def Step.desugar : Step Empty → List (Step Empty)
  | .group column steps => [.group column (desugarAll steps)]
  | step => step.rewritten

/-- The program with every shorthand written out, at any depth. -/
def desugarAll : List (Step Empty) → List (Step Empty)
  | [] => []
  | step :: rest => step.desugar ++ desugarAll rest

end

namespace Visit

def isDispatch : Visit → Bool
  | .event e => e.isDispatch
  | .outcome _ => false

def undispatched (vs : List Visit) : List Visit := vs.filter (!·.isDispatch)

theorem undispatched_append (vs ws : List Visit) :
    undispatched (vs ++ ws) = undispatched vs ++ undispatched ws :=
  List.filter_append ..

theorem undispatched_dispatch {v : Visit} (h : v.isDispatch) (vs : List Visit) :
    undispatched (v :: vs) = undispatched vs :=
  List.filter_cons_of_neg (by simp [h])

theorem undispatched_cons {v : Visit} (h : ¬ v.isDispatch) (vs : List Visit) :
    undispatched (v :: vs) = v :: undispatched vs :=
  List.filter_cons_of_pos (by simp [h])

theorem undispatched_outcome (x : Outcome) (vs : List Visit) :
    undispatched (.outcome x :: vs) = .outcome x :: undispatched vs :=
  have hx : ¬ (outcome x).isDispatch := Bool.false_ne_true
  undispatched_cons hx vs

theorem undispatched_andThen (vs : List Visit) (f : Row → Scope → List Visit) :
    undispatched (andThen vs f) = andThen (undispatched vs) fun row scope ↦ undispatched (f row scope) := by
  induction vs with
  | nil => rfl
  | cons v vs ih =>
    cases v with
    | event e =>
      have hcons : andThen (.event e :: vs) f = .event e :: andThen vs f := rfl
      by_cases h : (event e).isDispatch
      · rw [hcons, undispatched_dispatch h, undispatched_dispatch h, ih]
      · rw [hcons, undispatched_cons h, undispatched_cons h, ih]
        rfl
    | outcome x =>
      cases x with
      | error e => exact congrArg (.outcome (.error e) :: ·) ih
      | ok b =>
        have hcons (f : Row → Scope → List Visit) (vs : List Visit) :
            andThen (.outcome (.ok b) :: vs) f = f b.1 b.2 ++ andThen vs f := rfl
        rw [undispatched_outcome, hcons, hcons, undispatched_append, ih]

theorem undispatched_gathered (use : List Row → List Visit) (vs : List Visit) :
    undispatched (gathered use vs) = gathered (fun rows ↦ undispatched (use rows)) (undispatched vs) := by
  induction vs generalizing use with
  | nil => rfl
  | cons v vs ih =>
    cases v with
    | event e =>
      by_cases h : (event e).isDispatch
      · rw [gathered, undispatched_dispatch h, undispatched_dispatch h, ih]
      · rw [gathered, undispatched_cons h, undispatched_cons h, ih, gathered]
    | outcome x =>
      cases x with
      | error e => rfl
      | ok b => exact ih fun rows ↦ use (b.1 :: rows)

theorem undispatched_upTo (vs : List Visit) :
    undispatched (upTo isError vs) = upTo isError (undispatched vs) := by
  induction vs with
  | nil => rfl
  | cons v vs ih =>
    cases v with
    | event e =>
      have hcons (vs : List Visit) : upTo isError (.event e :: vs) = .event e :: upTo isError vs := rfl
      by_cases h : (event e).isDispatch
      · rw [hcons, undispatched_dispatch h, undispatched_dispatch h, ih]
      · rw [hcons, undispatched_cons h, undispatched_cons h, hcons, ih]
    | outcome x =>
      cases x with
      | error e => rfl
      | ok b => exact congrArg (.outcome (.ok b) :: ·) ih

theorem items_undispatched (vs : List Visit) : items (undispatched vs) = items vs := by
  induction vs with
  | nil => rfl
  | cons v vs ih =>
    cases v with
    | event e =>
      by_cases h : (event e).isDispatch
      · rw [undispatched_dispatch h, ih]
        rfl
      · rw [undispatched_cons h]
        exact ih
    | outcome x => exact congrArg (x.map Prod.fst :: ·) ih

theorem filter_eventsBefore (n : Nat) (vs : List Visit) :
    (eventsBefore n vs).filter (!·.isDispatch) = eventsBefore n (undispatched vs) := by
  induction vs generalizing n with
  | nil => cases n <;> rfl
  | cons v vs ih =>
    cases n with
    | zero => rw [eventsBefore_zero, eventsBefore_zero]; rfl
    | succ n =>
      cases v with
      | event e =>
        by_cases h : (event e).isDispatch
        · rw [undispatched_dispatch h, eventsBefore,
            List.filter_cons_of_neg (by simpa [isDispatch] using h), ih]
        · rw [undispatched_cons h, eventsBefore, eventsBefore,
            List.filter_cons_of_pos (by simpa [isDispatch] using h), ih]
      | outcome x => exact ih n

end Visit

open Visit

theorem undispatched_singleton (behind : Nat) (step : Step Empty) (row : Row) (scope : Scope) :
    undispatched (visits behind [step] row scope) = undispatched (step.visits behind row scope) := by
  rw [visits_singleton, undispatched_dispatch rfl]

theorem undispatched_columns (m n : Nat) (block : ColumnBlock) (row : Row) (scope : Scope) :
    undispatched (visits m (block.map .column) row scope) =
      undispatched (visits n (block.map .column) row scope) := by
  induction block generalizing row scope with
  | nil => rfl
  | cons c block ih =>
    have hblock : (fun row scope ↦ undispatched (visits m (block.map .column) row scope)) =
        fun row scope ↦ undispatched (visits n (block.map .column) row scope) :=
      funext fun row ↦ funext fun scope ↦ ih row scope
    rw [List.map_cons, visits, visits, undispatched_dispatch rfl, undispatched_dispatch rfl,
      undispatched_andThen, undispatched_andThen, hblock]
    rfl

mutual

-- The numbers of steps behind stand in dispatches alone, so they may differ on the two sides.
theorem Step.undispatched_desugar (m n : Nat) :
    ∀ (step : Step Empty) (row : Row) (scope : Scope),
      undispatched (visits m step.desugar row scope) = undispatched (step.visits n row scope)
  | .columns (c :: block), row, scope => by
    rw [Step.visits, ColumnBlock.visits_eq]
    exact undispatched_columns m n (c :: block) row scope
  | .group column steps, row, scope => by
    have hsteps := undispatched_desugarAll 0 0 steps ∅ scope
    rw [Step.desugar, undispatched_singleton, Step.visits, Step.visits, undispatched_gathered, hsteps,
      undispatched_gathered]
  | .dataset entries, row, scope => by
    rw [Step.visits, undispatched_dispatch rfl]
    exact undispatched_singleton m (.forEach entries) row scope
  | .columns [], _, _ | .unrecognized _, _, _ | .column _, _, _ | .merge _ _, _, _ | .filter _, _, _
  | .select _, _, _ | .discard _, _, _ => undispatched_singleton m _ _ _
  | .operator op, _, _ => op.elim

theorem undispatched_desugarAll (m n : Nat) :
    ∀ (steps : List (Step Empty)) (row : Row) (scope : Scope),
      undispatched (visits m (desugarAll steps) row scope) = undispatched (visits n steps row scope)
  | [], _, _ => rfl
  | step :: rest, row, scope => by
    have hrest : (fun row scope ↦ undispatched (visits m (desugarAll rest) row scope)) =
        fun row scope ↦ undispatched (visits n rest row scope) :=
      funext fun row ↦ funext fun scope ↦ undispatched_desugarAll m n rest row scope
    have hstep := Step.undispatched_desugar ((desugarAll rest).length + m) (rest.length + n) step row scope
    rw [desugarAll, visits_append, undispatched_andThen, hstep, hrest, visits, undispatched_dispatch rfl,
      undispatched_andThen]

end

theorem undispatched_trace_desugarAll (row : Row) (scope : Scope) (steps : List (Step Empty)) :
    undispatched (trace row scope (desugarAll steps)) = undispatched (trace row scope steps) := by
  rw [trace, trace, undispatched_upTo, undispatched_upTo, undispatched_desugarAll 0 0 steps row scope]

mutual

/-- Merges without a test have got one, here and there and at any depth, that every entry passes. -/
inductive Step.Tested : Step Empty → Step Empty → Prop
  | refl (step : Step Empty) : Step.Tested step step
  | merge (entries : List Value) {test : EntryTest} :
      (∀ scope entry, (test scope entry).value = true) →
      Step.Tested (.forEach entries) (.merge entries (some test))
  | group (column : String) {steps steps' : List (Step Empty)} :
      TestedAll steps steps' → Step.Tested (.group column steps) (.group column steps')

inductive TestedAll : List (Step Empty) → List (Step Empty) → Prop
  | nil : TestedAll [] []
  | cons {step step' : Step Empty} {rest rest' : List (Step Empty)} :
      Step.Tested step step' → TestedAll rest rest' → TestedAll (step :: rest) (step' :: rest')

end

theorem entryOutcomes_some {test : EntryTest} (h : ∀ scope entry, (test scope entry).value = true) (row : Row)
    (scope : Scope) (entry : Value × Nat) :
    entryOutcomes (some test) row scope entry = entryOutcomes none row scope entry := by
  obtain ⟨v, index⟩ := entry
  cases v <;> simp [entryOutcomes, h]

mutual

theorem Step.outcomes_tested :
    ∀ {step step' : Step Empty}, Step.Tested step step' → step'.outcomes = step.outcomes
  | _, _, .refl _ => rfl
  | _, _, .merge entries htest => by
    funext row scope
    refine congrArg entries.zipIdx.flatMap (funext fun entry ↦ ?_)
    exact entryOutcomes_some htest row scope entry
  | _, _, .group column hsteps => by
    funext row scope
    rw [Step.outcomes, outcomes_tested hsteps, Step.outcomes]

theorem outcomes_tested :
    ∀ {steps steps' : List (Step Empty)}, TestedAll steps steps' →
      outcomes steps' = outcomes steps
  | _, _, .nil => rfl
  | _, _, .cons hstep hrest => by
    funext row scope
    rw [outcomes, Step.outcomes_tested hstep, outcomes_tested hrest, outcomes]

end

/-- A program and the same one without shorthands give the same items, poll by poll, and but for the dispatches
report the same: in particular they call the same functions of the caller in the same order. A test that every
entry passes may stand at any merge without one. -/
theorem enumerate_desugarAll (row : Row) (scope : Scope) (steps : List (Step Empty)) :
    (∀ n, (enumerate row scope (desugarAll steps)).given n = (enumerate row scope steps).given n) ∧
    (∀ n, ((enumerate row scope (desugarAll steps)).reported n).filter (!·.isDispatch) =
      ((enumerate row scope steps).reported n).filter (!·.isDispatch)) ∧
    ∀ steps', TestedAll steps steps' →
      ∀ n, (enumerate row scope steps').given n = (enumerate row scope steps).given n := by
  have htrace := undispatched_trace_desugarAll row scope steps
  refine ⟨?_, ?_, ?_⟩
  · intro n
    rw [given_enumerate, given_enumerate, ← items_undispatched, htrace, items_undispatched]
  · intro n
    rw [reported_enumerate, reported_enumerate, filter_eventsBefore, filter_eventsBefore, htrace]
  · intro steps' hsteps n
    rw [given_enumerate, given_enumerate, items_trace, items_trace, reference, outcomes_tested hsteps, reference]

theorem given_tested_group :
    let untested : List (Step Empty) := [.group "g" [.forEach [.object [("a", .null)]]]]
    let tested : List (Step Empty) :=
      [.group "g" [.merge [.object [("a", .null)]] (some fun _ _ ↦ return true)]]
    TestedAll untested tested ∧
      ∀ n, (enumerate ∅ ∅ tested).given n = (enumerate ∅ ∅ untested).given n := by
  intro untested tested
  have htested : TestedAll untested tested := .cons (.group "g" (.cons (.merge _ fun _ _ ↦ rfl) .nil)) .nil
  exact ⟨htested, (enumerate_desugarAll ∅ ∅ untested).2.2 tested htested⟩

end RowProduct
