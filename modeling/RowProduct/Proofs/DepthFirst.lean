import RowProduct.Proofs.Demand
import RowProduct.Proofs.Fusing

namespace RowProduct

open Traversal Feed Visit

variable {Ω : Type}

section

variable {ε α β : Type}

theorem cut_map (f : α → β) (as : List (Except ε α)) :
    cut (as.map (Except.map f)) = (cut as).map (Except.map f) := by
  refine (upTo_map (fun a ↦ ?_) as).symm
  cases a <;> rfl

theorem cut_flatMap {f : Except ε α → List (Except ε β)} (hf : ∀ e, (f (.error e)).any isError)
    (as : List (Except ε α)) : cut (as.flatMap f) = cut ((cut as).flatMap fun a ↦ cut (f a)) := by
  induction as with
  | nil => rfl
  | cons a as ih =>
    have hcut (bs : List (Except ε β)) : cut (cut (f a) ++ bs) = cut (f a ++ bs) := by
      simp only [cut, upTo_append, any_upTo, upTo_upTo]
      split
      · rfl
      · next h => rw [upTo_eq_self h]
    cases a with
    | error e =>
      have hcons : cut (.error e :: as) = [.error e] := rfl
      rw [hcons, List.flatMap_cons, List.flatMap_cons, hcut]
      simp only [cut, upTo_append, hf, ↓reduceIte]
    | ok a =>
      have hcons : cut (.ok a :: as) = .ok a :: cut as := rfl
      rw [hcons, List.flatMap_cons, List.flatMap_cons, hcut]
      simp only [cut, upTo_append] at ih ⊢
      rw [ih]

end

theorem filterMap_upTo (vs : List Visit) :
    (upTo Visit.isError vs).filterMap outcome? = cut (vs.filterMap outcome?) := by
  induction vs with
  | nil => rfl
  | cons v vs ih =>
    cases v with
    | event e => exact ih
    | outcome x =>
      cases x with
      | error e => rfl
      | ok b => exact congrArg (.ok b :: ·) ih

theorem items_trace (row : Row) (scope : Scope) (steps : List (Step Empty)) :
    items (trace row scope steps) = cut (reference row scope steps) := by
  rw [items, trace, filterMap_upTo, outcomes_visits, reference, cut_map]

/-- Polls of a program give the items of its reference list up to the first error, and then nothing. -/
theorem enumerate_eq_reference (row : Row) (scope : Scope) (steps : List (Step Empty)) (n : Nat) :
    (enumerate row scope steps).given n = (cut (reference row scope steps))[n]? := by
  rw [(enumerate_replays row scope steps).given_items, ← trace, items_trace]

theorem given_congr {row row' : Row} {scope scope' : Scope} {xs ys : List (Step Empty)}
    (h : outcomes xs row scope = outcomes ys row' scope') :
    (enumerate row scope xs).given = (enumerate row' scope' ys).given := by
  funext n
  rw [given_enumerate, given_enumerate, items_trace, items_trace, reference, reference, h]

theorem given_eq_ok_iff {row r : Row} {scope : Scope} {steps : List (Step Empty)} {n : Nat} :
    (enumerate row scope steps).given n = some (.ok r) ↔
      ∃ s, (cut (outcomes steps row scope))[n]? = some (.ok (r, s)) := by
  rw [given_enumerate, items_trace, reference, cut_map, List.getElem?_map]
  cases (cut (outcomes steps row scope))[n]? with
  | none => simp
  | some x => cases x <;> simp [Except.map, Prod.ext_iff]

theorem andThen_append (as bs : List Outcome) (f : Row → Scope → List Outcome) :
    andThen (as ++ bs) f = andThen as f ++ andThen bs f :=
  List.flatMap_append

theorem andThen_assoc (as : List Outcome) (f g : Row → Scope → List Outcome) :
    andThen (andThen as f) g =
      andThen as fun row scope ↦ andThen (f row scope) g := by
  induction as with
  | nil => rfl
  | cons a as ih =>
    cases a with
    | error e => exact congrArg (.error e :: ·) ih
    | ok b =>
      have hcons (f : Row → Scope → List Outcome) :
          andThen (.ok b :: as) f = f b.1 b.2 ++ andThen as f := rfl
      rw [hcons, hcons, andThen_append, ih]

theorem andThen_ok (as : List Outcome) : (andThen as fun row scope ↦ [.ok (row, scope)]) = as := by
  induction as with
  | nil => rfl
  | cons a as ih => cases a <;> exact congrArg (_ :: ·) ih

theorem outcomes_singleton (step : Step Empty) (row : Row) (scope : Scope) :
    outcomes [step] row scope = step.outcomes row scope := andThen_ok _

theorem outcomes_append (xs ys : List (Step Empty)) (row : Row) (scope : Scope) :
    outcomes (xs ++ ys) row scope = andThen (outcomes xs row scope) (outcomes ys) := by
  induction xs generalizing row scope with
  | nil => exact (List.append_nil _).symm
  | cons step xs ih =>
    have hxs : outcomes (xs ++ ys) = fun row scope ↦ andThen (outcomes xs row scope) (outcomes ys) :=
      funext fun row ↦ funext fun scope ↦ ih row scope
    rw [List.cons_append, outcomes, hxs, outcomes, andThen_assoc]

def continued (steps : List (Step Empty)) : Outcome → List Item
  | .ok (row, scope) => reference row scope steps
  | .error e => [.error e]

theorem reference_append (xs ys : List (Step Empty)) (row : Row) (scope : Scope) :
    reference row scope (xs ++ ys) = (outcomes xs row scope).flatMap (continued ys) := by
  rw [reference, outcomes_append, andThen, List.map_flatMap]
  refine congrArg (outcomes xs row scope).flatMap (funext fun x ↦ ?_)
  cases x <;> rfl

namespace Traversal

/-- The items up to the first none. -/
def items : Traversal → List Item
  | .done => []
  | .item x next => x :: (next ()).items
  | .pause _ => []
  | .report _ next => (next ()).items
  | .endless _ _ => [.error .endless]

theorem Replays.items_eq {t : Traversal} {vs : List Visit} (h : Replays .give (fun _ ↦ .done) t vs) :
    t.items = Visit.items (upTo Visit.isError vs) := by
  induction h with
  | nil => rfl
  | report _ ih =>
    rw [upTo_events, items_events, ← ih]
    rfl
  | @branch row scope t vs _ ih => exact congrArg (.ok row :: ·) ih
  | fail => rfl

end Traversal

theorem items_enumerate (row : Row) (scope : Scope) (steps : List (Step Empty)) :
    (enumerate row scope steps).items = cut (reference row scope steps) := by
  rw [(enumerate_replays row scope steps).items_eq, ← trace, items_trace]

theorem chain_cut (run : Row → Scope → Feed) (as : List Outcome) : chain run (cut as) = chain run as := by
  induction as with
  | nil => rfl
  | cons a as ih =>
    cases a with
    | error e => rfl
    | ok b => exact congrArg (follow (run b.1 b.2)) ih

theorem given_enumerate_append [Operators Ω] (row : Row) (scope : Scope) (xs : List (Step Empty))
    (ys : List (Step Ω)) : (enumerate row scope (liftAll xs ++ ys)).given =
      chain (fun row scope ↦ (enumerate row scope ys).given) (cut (outcomes xs row scope)) := by
  have h := expandAll_replays ys xs row scope fun _ ↦ .done
  rw [enumerate, h.given_chain (expandAll_gives ys), outcomes_visits, given_done, chain_follow_nothing,
    chain_cut]

/-- A program and then another one: every branch that comes to the end of the first goes on with the second,
from the row and the scope it has got. -/
theorem enumerate_append (row : Row) (scope : Scope) (xs ys : List (Step Empty)) :
    (∀ row scope (steps : List (Step Empty)) n,
      (enumerate row scope steps).given n = (enumerate row scope steps).items[n]?) ∧
    (enumerate row scope xs).items = (cut (outcomes xs row scope)).map (Except.map Prod.fst) ∧
    (enumerate row scope (xs ++ ys)).items = cut ((cut (outcomes xs row scope)).flatMap fun
      | .ok (row, scope) => (enumerate row scope ys).items
      | .error e => [.error e]) ∧
    -- Steps of any kind behind the first program start from the same branches.
    ∀ (Ω : Type) [Operators Ω] (zs : List (Step Ω)), (enumerate row scope (liftAll xs ++ zs)).given =
      chain (fun row scope ↦ (enumerate row scope zs).given) (cut (outcomes xs row scope)) := by
  refine ⟨fun row scope steps n ↦ ?_, ?_, ?_, fun Ω _ zs ↦ given_enumerate_append row scope xs zs⟩
  · rw [(enumerate_replays row scope steps).given_items, ← trace, items_trace, items_enumerate]
  · rw [items_enumerate, reference, cut_map]
  · rw [items_enumerate, reference_append, cut_flatMap fun e ↦ rfl]
    refine congrArg (fun f ↦ cut ((cut (outcomes xs row scope)).flatMap f)) (funext fun x ↦ ?_)
    cases x with
    | error e => rfl
    | ok b => exact (items_enumerate b.1 b.2 ys).symm

end RowProduct
