import RowProduct.Proofs.Shielding

namespace RowProduct

open Traversal Feed Visit

variable {Ω : Type}

/-- The text of a step that is no step: of a value of another kind, or of a block without columns. -/
def Step.malformed? : Step Ω → Option String
  | .unrecognized v => some v.text
  | .columns [] => some "\x7b\x7d"
  | _ => none

namespace Visit

theorem exists_events (vs : List Visit) :
    ∃ (events : List Event) (rest : List Visit), vs = events.map event ++ rest ∧
      ∀ e later, rest ≠ event e :: later := by
  induction vs with
  | nil => exact ⟨[], [], rfl, fun e later h ↦ by cases h⟩
  | cons v vs ih =>
    cases v with
    | outcome x => exact ⟨[], outcome x :: vs, rfl, fun e later h ↦ by cases h⟩
    | event e =>
      obtain ⟨events, rest, rfl, hrest⟩ := ih
      exact ⟨e :: events, rest, rfl, hrest⟩

theorem eventsBefore_one (x : Outcome) (later : List Visit) :
    eventsBefore 1 (upTo isError (outcome x :: later)) = [] := by
  cases x with
  | error e => rfl
  | ok b => exact eventsBefore_zero _

theorem andThen_events (events : List Event) (vs : List Visit) (f : Row → Scope → List Visit) :
    andThen (events.map event ++ vs) f = events.map event ++ andThen vs f := by
  induction events with
  | nil => rfl
  | cons e events ih => exact congrArg (event e :: ·) ih

end Visit

namespace Traversal.Replays

variable {t : Traversal} {events : List Event}

theorem of_events (h : Replays .give (fun _ ↦ .done) t (events.map .event)) :
    t.given = nothing ∧ ∀ n, t.reported (n + 1) = events := by
  rw [← List.append_nil (events.map Visit.event)] at h
  refine ⟨funext fun n ↦ ?_, fun n ↦ ?_⟩
  · rw [h.given_items, upTo_events, items_events]
    rfl
  · rw [h.reported_eq, upTo_events, eventsBefore_events]
    exact List.append_nil events

theorem of_fail {e : Error} {later : List Visit}
    (h : Replays .give (fun _ ↦ .done) t (events.map .event ++ .outcome (.error e) :: later)) :
    t.given = once (.error e) ∧ ∀ n, t.reported (n + 1) = events := by
  refine ⟨funext fun n ↦ ?_, fun n ↦ ?_⟩
  · rw [h.given_items, upTo_events, items_events]
    cases n <;> rfl
  · rw [h.reported_eq, upTo_events, eventsBefore_events]
    cases n <;> exact List.append_nil events

end Traversal.Replays

section

variable (row : Row) (scope : Scope) (xs : List (Step Empty))

theorem given_zero : (enumerate row scope xs).given 0 =
    (outcomes xs row scope).head?.map (Except.map Prod.fst) := by
  rw [given_enumerate, items_trace, reference, cut_map]
  cases outcomes xs row scope with
  | nil => rfl
  | cons x branches => cases x <;> rfl

theorem uncounted_reported (behind n : Nat) :
    ((enumerate row scope xs).reported n).map Event.uncounted =
      (eventsBefore n (upTo Visit.isError (visits behind xs row scope))).map Event.uncounted := by
  rw [reported_enumerate, trace, map_uncounted_eventsBefore, map_uncounted_eventsBefore,
    upTo_map isError_uncounted, upTo_map isError_uncounted, uncounted_visits 0 behind]

theorem exists_first_branch (behind : Nat) :
    ∃ (events : List Event) (rest : List Visit),
      visits behind xs row scope = events.map .event ++ rest ∧
      ((enumerate row scope xs).reported 1).map Event.uncounted = events.map Event.uncounted ∧
      ((enumerate row scope xs).given 0 = none ∧ rest = [] ∨
        (∃ e later, (enumerate row scope xs).given 0 = some (.error e) ∧ rest = .outcome (.error e) :: later) ∨
        ∃ row' scope' later, (enumerate row scope xs).given 0 = some (.ok row') ∧
          rest = .outcome (.ok (row', scope')) :: later) := by
  obtain ⟨events, rest, hvisits, hrest⟩ := exists_events (visits behind xs row scope)
  have hgiven := given_zero row scope xs
  have hreported := uncounted_reported row scope xs behind 1
  rw [← outcomes_visits behind, hvisits, filterMap_events] at hgiven
  rw [hvisits, upTo_events, eventsBefore_events] at hreported
  refine ⟨events, rest, hvisits, ?_, ?_⟩
  · rcases rest with _ | ⟨e | x, later⟩
    · rw [hreported]
      exact congrArg (List.map Event.uncounted) (List.append_nil events)
    · exact absurd rfl (hrest e later)
    · rw [hreported, eventsBefore_one, List.append_nil]
  · rcases rest with _ | ⟨e | e | b, later⟩
    · exact .inl ⟨hgiven, rfl⟩
    · exact absurd rfl (hrest e later)
    · exact .inr (.inl ⟨e, later, hgiven, rfl⟩)
    · exact .inr (.inr ⟨b.1, b.2, later, hgiven, rfl⟩)

end

theorem expandAll_malformed [Operators Ω] {b : Step Ω} {text : String} (hb : b.malformed? = some text)
    (ys : List (Step Ω)) (next : Continuation) (row : Row) (scope : Scope) (after : Unit → Traversal) :
    Replays next after (expandAll (b :: ys) row scope after)
      [.event (.dispatch row scope b.kind ys.length), .outcome (.error (.unknownStep text))] := by
  cases b with
  | unrecognized v =>
    cases hb
    exact .event .fail
  | columns block =>
    cases block with
    | nil =>
      cases hb
      exact .event .fail
    | cons c block => cases hb
  | _ => cases hb

theorem not_isRow_once (e : Error) (n : Nat) : ¬ isRow (once (.error e) n) := by
  cases n <;> exact Bool.false_ne_true

/-- Behind any program a malformed step is what its first branch comes to, and nothing comes after that. Where
the program gives no row first, the step is not even dispatched. -/
theorem enumerate_malformed [Operators Ω] (row : Row) (scope : Scope) (xs : List (Step Empty)) {b : Step Ω}
    {text : String} (hb : b.malformed? = some text) (ys : List (Step Ω)) :
    let alone := enumerate row scope xs
    let run := enumerate row scope (liftAll xs ++ b :: ys)
    (∀ row', alone.given 0 = some (.ok row') →
      run.given = once (.error (.unknownStep text)) ∧
      ∃ scope', ∀ n, (run.reported (n + 1)).map Event.uncounted =
        (alone.reported 1 ++ [Event.dispatch row' scope' b.kind ys.length]).map Event.uncounted) ∧
    (∀ e, alone.given 0 = some (.error e) →
      run.given = once (.error e) ∧
      ∀ n, (run.reported (n + 1)).map Event.uncounted = (alone.reported 1).map Event.uncounted) ∧
    (alone.given 0 = none →
      run.given = nothing ∧
      ∀ n, (run.reported (n + 1)).map Event.uncounted = (alone.reported 1).map Event.uncounted) ∧
    ∀ n, ¬ isRow (run.given n) := by
  intro alone run
  let stopped (row : Row) (scope : Scope) : List Visit :=
    [.event (.dispatch row scope b.kind ys.length), .outcome (.error (.unknownStep text))]
  have hrun : Replays .give (fun _ ↦ .done) run (Visit.andThen (visits (ys.length + 1) xs row scope) stopped) :=
    (expandAll_replays (b :: ys) xs row scope _).andThen (expandAll_malformed hb ys _)
  obtain ⟨events, rest, hvisits, hreported, hfirst⟩ := exists_first_branch row scope xs (ys.length + 1)
  rw [hvisits, andThen_events] at hrun
  rcases hfirst with ⟨hnone, rfl⟩ | ⟨e, later, herror, rfl⟩ | ⟨row₁, scope₁, later, hrow, rfl⟩
  · have hnil : events.map Visit.event ++ Visit.andThen [] stopped = events.map Visit.event := List.append_nil _
    rw [hnil] at hrun
    obtain ⟨hgiven, hevents⟩ := hrun.of_events
    refine ⟨by simp [alone, hnone], by simp [alone, hnone], fun _ ↦ ⟨hgiven, fun n ↦ ?_⟩, fun n ↦ ?_⟩
    · rw [hevents, hreported]
    · rw [hgiven]
      exact Bool.false_ne_true
  · obtain ⟨hgiven, hevents⟩ := hrun.of_fail
    refine ⟨by simp [alone, herror], fun e' he' ↦ ?_, by simp [alone, herror], fun n ↦ ?_⟩
    · cases herror.symm.trans he'
      exact ⟨hgiven, fun n ↦ by rw [hevents, hreported]⟩
    · rw [hgiven]
      exact not_isRow_once e n
  · have hstopped : events.map Visit.event ++ Visit.andThen (.outcome (.ok (row₁, scope₁)) :: later) stopped =
        (events ++ [Event.dispatch row₁ scope₁ b.kind ys.length]).map Visit.event ++
          .outcome (.error (.unknownStep text)) :: Visit.andThen later stopped := by
      simp [Visit.andThen, stopped]
    rw [hstopped] at hrun
    obtain ⟨hgiven, hevents⟩ := hrun.of_fail
    refine ⟨fun row' hrow' ↦ ?_, by simp [alone, hrow], by simp [alone, hrow], fun n ↦ ?_⟩
    · cases hrow.symm.trans hrow'
      refine ⟨hgiven, scope₁, fun n ↦ ?_⟩
      rw [hevents, List.map_append, List.map_append, hreported]
    · rw [hgiven]
      exact not_isRow_once _ n

theorem given_malformed_block :
    let xs : List (Step Empty) :=
      [.column ⟨"a", .values [.null, .bool true]⟩, .filter fun row ↦ return (row.get? "a").any Value.isTrue,
        .dataset [.object [("b", .null)], .null]]
    let ys : List (Step Scripted) := [.operator (.emit [.row ∅])]
    let row : Row := .ofList [("a", .bool true), ("b", .null)]
    ((.columns [] : Step Scripted).malformed? = some "\x7b\x7d" ∧
      (enumerate ∅ ∅ xs).given 0 = some (.ok row)) ∧
    (enumerate ∅ ∅ (liftAll xs ++ .columns [] :: ys)).given = once (.error (.unknownStep "\x7b\x7d")) ∧
    ∃ scope, ∀ n, ((enumerate ∅ ∅ (liftAll xs ++ .columns [] :: ys)).reported (n + 1)).map Event.uncounted =
      ((enumerate ∅ ∅ xs).reported 1 ++ [Event.dispatch row scope "columns" 1]).map Event.uncounted := by
  intro xs ys row
  have hblock : (.columns [] : Step Scripted).malformed? = some "\x7b\x7d" := rfl
  have hrow : (enumerate ∅ ∅ xs).given 0 = some (.ok row) := rfl
  exact ⟨⟨hblock, hrow⟩, (enumerate_malformed ∅ ∅ xs hblock ys).1 row hrow⟩

end RowProduct
