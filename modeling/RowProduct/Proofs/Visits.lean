import RowProduct.Proofs.Reference

namespace RowProduct

inductive Visit where
  | event (e : Event)
  | outcome (x : Outcome)

namespace Visit

def isError : Visit → Bool
  | .outcome (.error _) => true
  | _ => false

def event? : Visit → Option Event
  | .event e => some e
  | .outcome _ => none

def outcome? : Visit → Option Outcome
  | .event _ => none
  | .outcome x => some x

def andThen (visits : List Visit) (further : Row → Scope → List Visit) : List Visit :=
  visits.flatMap fun
    | .outcome (.ok (row, scope)) => further row scope
    | v => [v]

/-- The events of a nested traversal, which gives nothing, and what to do with its rows. Its first error takes
their place. -/
def gathered (use : List Row → List Visit) : List Visit → List Visit
  | [] => use []
  | .event e :: visits => .event e :: gathered use visits
  | .outcome (.ok (row, _)) :: visits => gathered (fun rows ↦ use (row :: rows)) visits
  | .outcome (.error e) :: _ => [.outcome (.error e)]

end Visit

def Column.visits (c : Column) (row : Row) (scope : Scope) : List Visit :=
  (c.resolve scope).events.map .event ++ (c.outcomes row scope).map .outcome

def ColumnBlock.visits (remaining : Nat) : ColumnBlock → Row → Scope → List Visit
  | [], row, scope => [.outcome (.ok (row, scope))]
  | c :: block, row, scope =>
    .event (.dispatch row scope "col" (block.length + remaining)) ::
      Visit.andThen (c.visits row scope) (ColumnBlock.visits remaining block)

def entryEvents (test : Option EntryTest) (scope : Scope) : Value × Nat → List Event
  | (.object entry, _) => test.elim [] fun test ↦ (test scope entry).events
  | (_, index) => [.rejected index]

def entryVisits (test : Option EntryTest) (row : Row) (scope : Scope) (entry : Value × Nat) : List Visit :=
  (entryEvents test scope entry).map .event ++ (entryOutcomes test row scope entry).map .outcome

def mergeVisits (test : Option EntryTest) (row : Row) (scope : Scope) (entries : List Value) : List Visit :=
  entries.zipIdx.flatMap (entryVisits test row scope)

mutual

def Step.visits (remaining : Nat) : Step Empty → Row → Scope → List Visit
  | .columns [], _, _ => [.outcome (.error (.ofStep (.object [])))]
  | .columns (c :: block), row, scope => ColumnBlock.visits remaining (c :: block) row scope
  | .dataset entries, row, scope =>
    .event (.dispatch row scope "merge" remaining) :: mergeVisits none row scope entries
  | .unrecognized v, _, _ => [.outcome (.error (.ofStep v))]
  | .column c, row, scope => c.visits row scope
  | .merge entries test, row, scope => mergeVisits test row scope entries
  | .filter test, row, scope =>
    (test row).events.map .event ++ if (test row).value then [.outcome (.ok (row, scope))] else []
  | .group column steps, row, scope =>
    Visit.gathered (fun rows ↦ [.event (.grouped column rows.length),
      .outcome (.ok (row.insert column (.array (rows.map Record.toValue)), scope))]) (visits 0 steps ∅ scope)
  | .select names, row, scope =>
    let kept := names.filter row.contains
    [.outcome (.ok (row.select kept, scope.select kept))]
  | .discard names, row, scope => [.outcome (.ok (row.discard names, scope.discard names))]
  | .operator op, _, _ => op.elim

/-- The eager depth-first traversal of steps that have `behind` others behind them, with the branches behind an
error. -/
def visits (behind : Nat) : List (Step Empty) → Row → Scope → List Visit
  | [], row, scope => [.outcome (.ok (row, scope))]
  | step :: rest, row, scope =>
    .event (.dispatch row scope step.kind (rest.length + behind)) ::
      Visit.andThen (step.visits (rest.length + behind) row scope) (visits behind rest)

end

namespace Visit

theorem andThen_append (vs ws : List Visit) (f : Row → Scope → List Visit) :
    andThen (vs ++ ws) f = andThen vs f ++ andThen ws f :=
  List.flatMap_append

theorem andThen_assoc (vs : List Visit) (f g : Row → Scope → List Visit) :
    andThen (andThen vs f) g = andThen vs fun row scope ↦ andThen (f row scope) g := by
  induction vs with
  | nil => rfl
  | cons v vs ih =>
    have hcons (f : Row → Scope → List Visit) : andThen (v :: vs) f = andThen [v] f ++ andThen vs f :=
      andThen_append [v] vs f
    rw [hcons, andThen_append, ih, hcons]
    rcases v with e | e | b
    · rfl
    · rfl
    · simp [andThen]

theorem andThen_outcome (vs : List Visit) :
    (andThen vs fun row scope ↦ [.outcome (.ok (row, scope))]) = vs := by
  induction vs with
  | nil => rfl
  | cons v vs ih => rcases v with e | e | b <;> exact congrArg (_ :: ·) ih

end Visit

theorem visits_append (behind : Nat) (xs ys : List (Step Empty)) (row : Row) (scope : Scope) :
    visits behind (xs ++ ys) row scope =
      Visit.andThen (visits (ys.length + behind) xs row scope) (visits behind ys) := by
  induction xs generalizing row scope with
  | nil => exact (List.append_nil _).symm
  | cons step xs ih =>
    have hxs : visits behind (xs ++ ys) =
        fun row scope ↦ Visit.andThen (visits (ys.length + behind) xs row scope) (visits behind ys) :=
      funext fun row ↦ funext fun scope ↦ ih row scope
    rw [List.cons_append, visits, hxs, visits, List.length_append, Nat.add_assoc, ← Visit.andThen_assoc]
    rfl

theorem visits_singleton (behind : Nat) (step : Step Empty) (row : Row) (scope : Scope) :
    visits behind [step] row scope =
      .event (.dispatch row scope step.kind behind) :: step.visits behind row scope := by
  have hnil : visits behind [] = fun row scope ↦ [.outcome (.ok (row, scope))] := rfl
  rw [visits, hnil, Visit.andThen_outcome, List.length_nil, Nat.zero_add]

theorem ColumnBlock.visits_eq (behind : Nat) (block : ColumnBlock) :
    ColumnBlock.visits behind block = RowProduct.visits behind (block.map .column) := by
  induction block with
  | nil => rfl
  | cons c block ih =>
    funext row scope
    rw [ColumnBlock.visits, ih, List.map_cons, RowProduct.visits, List.length_map]
    rfl

namespace Visit

theorem filterMap_events (events : List Event) (vs : List Visit) :
    (events.map event ++ vs).filterMap outcome? = vs.filterMap outcome? := by
  induction events with
  | nil => rfl
  | cons e events ih => exact ih

theorem filterMap_outcome (outcomes : List Outcome) : (outcomes.map outcome).filterMap outcome? = outcomes := by
  induction outcomes with
  | nil => rfl
  | cons x outcomes ih => exact congrArg (x :: ·) ih

theorem filterMap_andThen {f : Row → Scope → List Visit} {g : Row → Scope → List Outcome}
    (h : ∀ row scope, (f row scope).filterMap outcome? = g row scope) (vs : List Visit) :
    (andThen vs f).filterMap outcome? = RowProduct.andThen (vs.filterMap outcome?) g := by
  induction vs with
  | nil => rfl
  | cons v vs ih =>
    cases v with
    | event e => exact ih
    | outcome x =>
      cases x with
      | error e => exact congrArg (.error e :: ·) ih
      | ok b =>
        have hcons : andThen (.outcome (.ok b) :: vs) f = f b.1 b.2 ++ andThen vs f := rfl
        rw [hcons, List.filterMap_append, h, ih]
        rfl

theorem filterMap_gathered (use : List Row → List Visit) (vs : List Visit) :
    (gathered use vs).filterMap outcome? =
      match (vs.filterMap outcome?).mapM id with
      | .ok nested => (use (nested.map Prod.fst)).filterMap outcome?
      | .error e => [.error e] := by
  induction vs generalizing use with
  | nil => rfl
  | cons v vs ih =>
    cases v with
    | event e => exact ih use
    | outcome x =>
      cases x with
      | error e => rfl
      | ok b =>
        have hcons : (.outcome (.ok b) :: vs).filterMap outcome? = .ok b :: vs.filterMap outcome? := rfl
        rw [gathered, ih, hcons, mapM_id_cons_ok]
        cases (vs.filterMap outcome?).mapM id <;> rfl

end Visit

open Visit

theorem Column.outcomes_visits (c : Column) (row : Row) (scope : Scope) :
    (c.visits row scope).filterMap outcome? = c.outcomes row scope := by
  rw [Column.visits, filterMap_events, filterMap_outcome]

theorem ColumnBlock.outcomes_visits (remaining : Nat) (block : ColumnBlock) (row : Row) (scope : Scope) :
    (ColumnBlock.visits remaining block row scope).filterMap outcome? = ColumnBlock.outcomes block row scope := by
  induction block generalizing row scope with
  | nil => rfl
  | cons c block ih =>
    have h := filterMap_andThen ih (c.visits row scope)
    rwa [c.outcomes_visits] at h

theorem outcomes_mergeVisits (test : Option EntryTest) (row : Row) (scope : Scope) (entries : List Value) :
    (mergeVisits test row scope entries).filterMap outcome? = mergeOutcomes test row scope entries := by
  rw [mergeVisits, List.filterMap_flatMap, mergeOutcomes]
  refine congrArg entries.zipIdx.flatMap (funext fun entry ↦ ?_)
  rw [entryVisits, filterMap_events, filterMap_outcome]

mutual

theorem Step.outcomes_visits (remaining : Nat) :
    ∀ (step : Step Empty) (row : Row) (scope : Scope),
      (step.visits remaining row scope).filterMap outcome? = step.outcomes row scope
  | .columns [], _, _ => rfl
  | .columns (c :: block), row, scope => ColumnBlock.outcomes_visits remaining (c :: block) row scope
  | .dataset entries, row, scope => outcomes_mergeVisits none row scope entries
  | .unrecognized _, _, _ => rfl
  | .column c, row, scope => c.outcomes_visits row scope
  | .merge entries test, row, scope => outcomes_mergeVisits test row scope entries
  | .filter test, row, scope => by
    rw [Step.visits, filterMap_events, Step.outcomes]
    split <;> rfl
  | .group column steps, row, scope => by
    rw [Step.visits, filterMap_gathered, outcomes_visits 0 steps, Step.outcomes]
    cases (outcomes steps ∅ scope).mapM id with
    | error e => rfl
    | ok nested => simp only [List.map_map]; rfl
  | .select _, _, _ => rfl
  | .discard _, _, _ => rfl
  | .operator op, _, _ => op.elim

theorem outcomes_visits (behind : Nat) :
    ∀ (steps : List (Step Empty)) (row : Row) (scope : Scope),
      (visits behind steps row scope).filterMap outcome? = outcomes steps row scope
  | [], _, _ => rfl
  | step :: rest, row, scope => by
    have hrest := outcomes_visits behind rest
    have h := filterMap_andThen hrest (step.visits (rest.length + behind) row scope)
    rwa [Step.outcomes_visits (rest.length + behind) step] at h

end

end RowProduct
