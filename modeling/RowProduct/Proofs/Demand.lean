import RowProduct.Proofs.Replay

namespace RowProduct

open Traversal

namespace Visit

def items (visits : List Visit) : List Item := (visits.filterMap outcome?).map (Except.map Prod.fst)

/-- The events before the `n`-th outcome; all of them when there are fewer outcomes. -/
def eventsBefore : Nat → List Visit → List Event
  | 0, _ => []
  | _ + 1, [] => []
  | n + 1, .event e :: visits => e :: eventsBefore (n + 1) visits
  | n + 1, .outcome _ :: visits => eventsBefore n visits

end Visit

def trace (row : Row) (scope : Scope) (steps : List (Step Empty)) : List Visit :=
  upTo Visit.isError (visits 0 steps row scope)

namespace Visit

theorem upTo_events (events : List Event) (vs : List Visit) :
    upTo isError (events.map .event ++ vs) = events.map .event ++ upTo isError vs := by
  have hevents : ¬ (events.map Visit.event).any isError := by simp [isError]
  rw [upTo_append, if_neg hevents]

theorem items_events (events : List Event) (vs : List Visit) :
    items (events.map .event ++ vs) = items vs := by
  rw [items, filterMap_events, items]

theorem eventsBefore_events (n : Nat) (events : List Event) (vs : List Visit) :
    eventsBefore (n + 1) (events.map .event ++ vs) = events ++ eventsBefore (n + 1) vs := by
  induction events with
  | nil => rfl
  | cons e events ih => exact congrArg (e :: ·) ih

theorem eventsBefore_zero (vs : List Visit) : eventsBefore 0 vs = [] := by
  cases vs <;> rfl

theorem eventsBefore_of_lt {n : Nat} {vs : List Visit} (h : (items vs).length < n) :
    eventsBefore n vs = vs.filterMap event? := by
  obtain ⟨n, rfl⟩ : ∃ m, n = m + 1 := Nat.exists_eq_add_one.mpr (by omega)
  induction vs generalizing n with
  | nil => rfl
  | cons v vs ih =>
    cases v with
    | event e => exact congrArg (e :: ·) (ih n h)
    | outcome x =>
      have hlength : (items (.outcome x :: vs)).length = (items vs).length + 1 := rfl
      obtain ⟨n, rfl⟩ : ∃ m, n = m + 1 := Nat.exists_eq_add_one.mpr (by omega)
      exact ih n (by omega)

end Visit

theorem Traversal.Replays.given_items {t : Traversal} {vs : List Visit} (h : Replays .give (fun _ ↦ .done) t vs)
    (n : Nat) : t.given n = (Visit.items (upTo Visit.isError vs))[n]? := by
  induction h generalizing n with
  | nil => exact congrFun given_done n
  | report _ ih => rw [Visit.upTo_events, Visit.items_events, given_report, ih]
  | @branch row scope t vs _ ih =>
    cases n with
    | zero => rfl
    | succ n => exact ih n
  | fail =>
    rw [given_fail]
    cases n <;> rfl

theorem Traversal.Replays.reported_eq {t : Traversal} {vs : List Visit}
    (h : Replays .give (fun _ ↦ .done) t vs) (n : Nat) :
    t.reported n = Visit.eventsBefore n (upTo Visit.isError vs) := by
  induction h generalizing n with
  | nil =>
    rw [reported_done]
    cases n <;> rfl
  | report _ ih =>
    cases n with
    | zero => rw [Visit.eventsBefore_zero, Traversal.reported]
    | succ n => rw [reported_report_succ, ih, Visit.upTo_events, Visit.eventsBefore_events]
  | branch _ ih =>
    cases n with
    | zero => rfl
    | succ n => exact ih n
  | fail =>
    rw [reported_fail]
    rcases n with _ | _ | n <;> rfl

theorem enumerate_replays (row : Row) (scope : Scope) (steps : List (Step Empty)) :
    Replays .give (fun _ ↦ .done) (enumerate row scope steps) (visits 0 steps row scope) := by
  have h := expandAll_replays ([] : List (Step Empty)) steps row scope fun _ ↦ .done
  rwa [liftAll_self, List.append_nil] at h

theorem given_enumerate (row : Row) (scope : Scope) (steps : List (Step Empty)) (n : Nat) :
    (enumerate row scope steps).given n = (Visit.items (trace row scope steps))[n]? :=
  (enumerate_replays row scope steps).given_items n

theorem reported_enumerate (row : Row) (scope : Scope) (steps : List (Step Empty)) (n : Nat) :
    (enumerate row scope steps).reported n = Visit.eventsBefore n (trace row scope steps) :=
  (enumerate_replays row scope steps).reported_eq n

/-- The first `n` polls of a program report what stands in its trace before the `n`-th item, and polls beyond
the last item report the rest of it and no more. -/
theorem enumerate_on_demand (row : Row) (scope : Scope) (steps : List (Step Empty)) :
    (∀ n, (enumerate row scope steps).reported n = Visit.eventsBefore n (trace row scope steps)) ∧
    (∀ n, (enumerate row scope steps).given n = (Visit.items (trace row scope steps))[n]?) ∧
    (∀ n, (enumerate row scope steps).reported ((Visit.items (trace row scope steps)).length + 1 + n) =
      (trace row scope steps).filterMap Visit.event?) := by
  have h := enumerate_replays row scope steps
  refine ⟨h.reported_eq, h.given_items, fun n ↦ ?_⟩
  have hlater : (Visit.items (trace row scope steps)).length <
      (Visit.items (trace row scope steps)).length + 1 + n := by omega
  exact (h.reported_eq _).trans (Visit.eventsBefore_of_lt hlater)

end RowProduct
