import RowProduct.Proofs.DepthFirst
import RowProduct.Scripted

namespace RowProduct

open Traversal Feed Visit

def Event.uncounted : Event → Event
  | .dispatch row scope kind _ => .dispatch row scope kind 0
  | e => e

/-- The step lets no branch with this row and scope go on. -/
inductive Step.Shields (row : Row) (scope : Scope) : Step Empty → Prop
  | filter {test : Row → Traced Bool} : ¬ (test row).value → Shields row scope (.filter test)
  | column {c : Column} : (c.resolve scope).value = .ok [] → Shields row scope (.column c)
  | columns {block : ColumnBlock} {name : String} :
      ⟨name, .values []⟩ ∈ block → Shields row scope (.columns block)
  | dataset : Shields row scope (.dataset [])
  | merge {entries : List Value} {test : Option EntryTest} :
      (∀ entry, .object entry ∈ entries → ¬ test.all fun test ↦ (test scope entry).value) →
      Shields row scope (.merge entries test)
  | group {column : String} {steps : List (Step Empty)} {n : Nat} {e : Error} :
      (enumerate ∅ scope steps).given n = some (.error e) → Shields row scope (.group column steps)

namespace Visit

def uncounted : Visit → Visit
  | .event e => .event e.uncounted
  | .outcome x => .outcome x

theorem isError_uncounted (v : Visit) : v.uncounted.isError = v.isError := by
  cases v <;> rfl

theorem map_uncounted_andThen (vs : List Visit) (f : Row → Scope → List Visit) :
    (andThen vs f).map uncounted = andThen (vs.map uncounted) fun row scope ↦ (f row scope).map uncounted := by
  rw [andThen, andThen, List.map_flatMap, List.flatMap_map]
  refine congrArg vs.flatMap (funext fun v ↦ ?_)
  rcases v with e | e | b <;> rfl

theorem map_uncounted_eventsBefore (n : Nat) (vs : List Visit) :
    (eventsBefore n vs).map Event.uncounted = eventsBefore n (vs.map uncounted) := by
  induction vs generalizing n with
  | nil => cases n <;> rfl
  | cons v vs ih =>
    cases n with
    | zero => rw [eventsBefore_zero, eventsBefore_zero]; rfl
    | succ n =>
      cases v with
      | event e => exact congrArg (e.uncounted :: ·) (ih (n + 1))
      | outcome x => exact ih n

end Visit

section

variable (m n : Nat) (row : Row) (scope : Scope)

theorem ColumnBlock.uncounted_visits (block : ColumnBlock) :
    (ColumnBlock.visits m block row scope).map uncounted =
      (ColumnBlock.visits n block row scope).map uncounted := by
  induction block generalizing row scope with
  | nil => rfl
  | cons c block ih =>
    rw [ColumnBlock.visits, ColumnBlock.visits, List.map_cons, List.map_cons, map_uncounted_andThen,
      map_uncounted_andThen]
    simp only [ih]
    rfl

-- The steps of a group have none behind them on either side.
theorem Step.uncounted_visits (step : Step Empty) :
    (step.visits m row scope).map uncounted = (step.visits n row scope).map uncounted := by
  cases step with
  | columns block =>
    cases block with
    | nil => rfl
    | cons c block => exact ColumnBlock.uncounted_visits m n row scope (c :: block)
  | operator op => exact op.elim
  | _ => rfl

theorem uncounted_visits (steps : List (Step Empty)) :
    (visits m steps row scope).map uncounted = (visits n steps row scope).map uncounted := by
  induction steps generalizing row scope with
  | nil => rfl
  | cons step rest ih =>
    rw [visits, visits, List.map_cons, List.map_cons, map_uncounted_andThen, map_uncounted_andThen,
      Step.uncounted_visits (rest.length + m) (rest.length + n)]
    simp only [ih]
    rfl

end

theorem Traversal.Replays.of_unreached {next next' : Continuation} {after : Unit → Traversal} {t : Traversal}
    {vs : List Visit} (h : Replays next after t vs) (hvs : ∀ b, .outcome (.ok b) ∉ upTo Visit.isError vs) :
    Replays next' after t vs := by
  induction h with
  | nil => exact .nil
  | report _ ih =>
    rw [upTo_events] at hvs
    exact .report (ih fun b hb ↦ hvs b (List.mem_append_right _ hb))
  | branch _ _ => exact absurd List.mem_cons_self (hvs _)
  | fail => exact .fail

section

variable {row : Row} {scope : Scope} {xs : List (Step Empty)}

theorem forall_not_isRow_iff :
    (∀ n, ¬ isRow ((enumerate row scope xs).given n)) ↔ ∀ b, .ok b ∉ cut (outcomes xs row scope) := by
  constructor
  · intro h b hb
    obtain ⟨n, hn⟩ := List.mem_iff_getElem?.1 hb
    apply h n
    rw [given_eq_ok_iff.2 ⟨b.2, hn⟩]
    rfl
  · intro h n hrow
    obtain ⟨r, hr⟩ := exists_of_isRow hrow
    obtain ⟨s, hs⟩ := given_eq_ok_iff.1 hr
    exact h (r, s) (List.mem_of_getElem? hs)

theorem outcome_notMem_visits (h : ∀ n, ¬ isRow ((enumerate row scope xs).given n)) (behind : Nat)
    (b : Row × Scope) : .outcome (.ok b) ∉ upTo Visit.isError (visits behind xs row scope) := by
  intro hb
  have hout : .ok b ∈ (upTo Visit.isError (visits behind xs row scope)).filterMap outcome? :=
    List.mem_filterMap.2 ⟨_, hb, rfl⟩
  rw [filterMap_upTo, outcomes_visits] at hout
  exact forall_not_isRow_iff.1 h b hout

theorem enumerate_replays_unreached (h : ∀ n, ¬ isRow ((enumerate row scope xs).given n)) {Ω : Type}
    [Operators Ω] (ys : List (Step Ω)) :
    Replays .give (fun _ ↦ .done) (enumerate row scope (liftAll xs ++ ys)) (visits ys.length xs row scope) :=
  (expandAll_replays ys xs row scope fun _ ↦ .done).of_unreached (outcome_notMem_visits h ys.length)

end

theorem ColumnBlock.ok_notMem_outcomes {block : ColumnBlock} {name : String} (h : ⟨name, .values []⟩ ∈ block)
    (row : Row) (scope : Scope) (b : Row × Scope) : .ok b ∉ ColumnBlock.outcomes block row scope := by
  induction block generalizing row scope with
  | nil => cases h
  | cons c block ih =>
    intro hb
    obtain ⟨row', scope', hc, hblock⟩ := ok_mem_andThen hb
    rcases List.mem_cons.1 h with rfl | h
    · cases hc
    · exact ih h row' scope' hblock

theorem Step.Shields.ok_notMem_outcomes {row : Row} {scope : Scope} {step : Step Empty}
    (h : step.Shields row scope) (b : Row × Scope) : .ok b ∉ step.outcomes row scope := by
  intro hb
  cases h with
  | filter htest =>
    rw [Step.outcomes, if_neg htest] at hb
    cases hb
  | column hc =>
    rw [Step.outcomes, Column.outcomes, hc] at hb
    cases hb
  | @columns block _ hname =>
    cases block with
    | nil => cases hname
    | cons c block => exact ColumnBlock.ok_notMem_outcomes hname row scope b hb
  | dataset => cases hb
  | merge htest =>
    obtain ⟨entry, hentry, hpasses, -, -⟩ := ok_mem_mergeOutcomes hb
    exact htest entry hentry hpasses
  | group hnested =>
    rw [Step.outcomes_group] at hb
    split at hb
    · next rows hrows =>
      rw [given_enumerate, items_trace, mapM_id_eq_ok hrows] at hnested
      obtain ⟨r, -, hr⟩ := List.mem_map.1 (mem_of_mem_upTo (List.mem_of_getElem? hnested))
      cases hr
    · cases List.mem_singleton.1 hb

theorem not_isRow_of_shields {row : Row} {scope : Scope} {xs : List (Step Empty)} {step : Step Empty}
    (h : ∀ row' scope', .ok (row', scope') ∈ cut (outcomes xs row scope) → step.Shields row' scope') (n : Nat) :
    ¬ isRow ((enumerate row scope (xs ++ [step])).given n) := by
  refine forall_not_isRow_iff.2 (fun b hb ↦ ?_) n
  rw [outcomes_append, andThen, cut_flatMap fun e ↦ rfl] at hb
  obtain ⟨x, hx, hb⟩ := List.mem_flatMap.1 (mem_of_mem_upTo hb)
  cases x with
  | error e => cases List.mem_singleton.1 hb
  | ok b' =>
    have hstep : .ok b ∈ outcomes [step] b'.1 b'.2 := mem_of_mem_upTo hb
    rw [outcomes_singleton] at hstep
    exact (h b'.1 b'.2 hx).ok_notMem_outcomes b hstep

/-- Whatever steps stand behind a program that gives no row, with operators of any kind among them, the items
are those of the program alone. So are the reports, but for the numbers of the steps that remain: no step behind
is dispatched, and none of its functions is called. A step that no branch of a program passes makes it such a
program. -/
theorem enumerate_unreached (row : Row) (scope : Scope) (xs : List (Step Empty)) :
    ((∀ n, ¬ isRow ((enumerate row scope xs).given n)) →
      ∀ (Ω Ω' : Type) [Operators Ω] [Operators Ω'] (ys : List (Step Ω)) (zs : List (Step Ω')),
        (∀ n, (enumerate row scope (liftAll xs ++ ys)).given n = (enumerate row scope xs).given n ∧
          (enumerate row scope (liftAll xs ++ ys)).given n = (enumerate row scope (liftAll xs ++ zs)).given n) ∧
        (∀ n, ((enumerate row scope (liftAll xs ++ ys)).reported n).map Event.uncounted =
          ((enumerate row scope xs).reported n).map Event.uncounted) ∧
        -- As many steps of another kind make no difference at all.
        (ys.length = zs.length → ∀ n, (enumerate row scope (liftAll xs ++ ys)).reported n =
          (enumerate row scope (liftAll xs ++ zs)).reported n)) ∧
    ∀ step : Step Empty,
      (∀ row' scope', .ok (row', scope') ∈ cut (outcomes xs row scope) → step.Shields row' scope') →
      ∀ n, ¬ isRow ((enumerate row scope (xs ++ [step])).given n) := by
  refine ⟨fun h Ω Ω' _ _ ys zs ↦ ?_, fun step hstep ↦ not_isRow_of_shields hstep⟩
  have hys := enumerate_replays_unreached h ys
  have hzs := enumerate_replays_unreached h zs
  have hitems (behind : Nat) : Visit.items (upTo Visit.isError (visits behind xs row scope)) =
      Visit.items (trace row scope xs) := by
    rw [Visit.items, filterMap_upTo, outcomes_visits, items_trace, reference, cut_map]
  have huncounted (behind n : Nat) :
      (eventsBefore n (upTo Visit.isError (visits behind xs row scope))).map Event.uncounted =
        (eventsBefore n (trace row scope xs)).map Event.uncounted := by
    rw [trace, map_uncounted_eventsBefore, map_uncounted_eventsBefore, upTo_map isError_uncounted,
      upTo_map isError_uncounted, uncounted_visits behind 0]
  refine ⟨fun n ↦ ⟨?_, ?_⟩, fun n ↦ ?_, fun hlength n ↦ ?_⟩
  · rw [hys.given_items, hitems, given_enumerate]
  · rw [hys.given_items, hzs.given_items, hitems, hitems]
  · rw [hys.reported_eq, huncounted, reported_enumerate]
  · rw [hys.reported_eq, hzs.reported_eq, hlength]

theorem given_behind_unmatched_join :
    let before : List (Step Empty) := [.column ⟨"a", .values [.null, .bool true]⟩]
    let xs : List (Step Empty) := before ++ [.join [.object [("a", .string "x")], .object []] "a"]
    let ys : List (Step Empty) := [.unrecognized .null]
    let zs : List (Step Scripted) := [.operator (.emit [.gap, .row ∅])]
    (∀ n, ¬ isRow ((enumerate ∅ ∅ xs).given n)) ∧
      (∀ n, (enumerate ∅ ∅ (liftAll xs ++ ys)).given n = (enumerate ∅ ∅ (liftAll xs ++ zs)).given n) ∧
      ∀ n, (enumerate ∅ ∅ (liftAll xs ++ ys)).reported n = (enumerate ∅ ∅ (liftAll xs ++ zs)).reported n := by
  intro before xs ys zs
  have hunmatched (row' : Row) (scope' : Scope) (hout : .ok (row', scope') ∈ cut (outcomes before ∅ ∅)) :
      (Step.join [.object [("a", .string "x")], .object []] "a").Shields row' scope' := by
    have hbranches : cut (outcomes before ∅ ∅) =
        [.ok (.ofList [("a", .null)], .ofList [("a", .null)]),
          .ok (.ofList [("a", .bool true)], .ofList [("a", .bool true)])] := rfl
    rw [hbranches] at hout
    refine .merge fun entry hentry ↦ ?_
    simp only [List.mem_cons, Except.ok.injEq, Prod.mk.injEq, List.not_mem_nil, or_false] at hout
    simp only [List.mem_cons, Value.object.injEq, List.not_mem_nil, or_false] at hentry
    rcases hout with ⟨-, rfl⟩ | ⟨-, rfl⟩ <;> rcases hentry with rfl | rfl <;> decide
  have hxs := (enumerate_unreached ∅ ∅ before).2 _ hunmatched
  obtain ⟨hgiven, -, hreported⟩ := (enumerate_unreached ∅ ∅ xs).1 hxs Empty Scripted ys zs
  exact ⟨hxs, fun n ↦ (hgiven n).2, hreported rfl⟩

end RowProduct
