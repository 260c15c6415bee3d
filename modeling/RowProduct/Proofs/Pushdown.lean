import RowProduct.Proofs.Groups

namespace RowProduct

open Traversal Feed

def Step.projects : Step Empty → Bool
  | .select _ | .discard _ => true
  | _ => false

def entryNames : Value → List String
  | .object fields => Fields.names fields
  | _ => []

def Step.writes : Step Empty → List String
  | .columns block => block.map Column.name
  | .dataset entries | .merge entries _ => entries.flatMap entryNames
  | .column c => [c.name]
  | .group name _ => [name]
  | _ => []

section

variable {row row' : Row} {scope scope' : Scope} {names : List String}

theorem Column.discard_outcomes {c : Column} (hc : c.name ∈ names)
    (h : .ok (row', scope') ∈ c.outcomes row scope) : row'.discard names = row.discard names := by
  obtain ⟨v, rfl, -⟩ := ok_mem_column h
  exact row.discard_insert_of_mem hc v

theorem ColumnBlock.discard_outcomes {block : ColumnBlock} (hblock : block.map Column.name ⊆ names)
    (h : .ok (row', scope') ∈ ColumnBlock.outcomes block row scope) :
    row'.discard names = row.discard names := by
  induction block generalizing row scope with
  | nil =>
    cases List.mem_singleton.1 h
    rfl
  | cons c block ih =>
    obtain ⟨hc, hblock⟩ := List.cons_subset.1 hblock
    obtain ⟨row₁, scope₁, hfirst, hrest⟩ := ok_mem_andThen h
    rw [ih hblock hrest, Column.discard_outcomes hc hfirst]

theorem discard_mergeOutcomes {test : Option EntryTest} {entries : List Value}
    (hentries : entries.flatMap entryNames ⊆ names)
    (h : .ok (row', scope') ∈ mergeOutcomes test row scope entries) :
    row'.discard names = row.discard names := by
  obtain ⟨entry, hentry, -, rfl, -⟩ := ok_mem_mergeOutcomes h
  exact row.discard_overlay_of_subset fun name hname ↦ hentries (List.mem_flatMap.2 ⟨_, hentry, hname⟩)

theorem Step.discard_outcomes {step : Step Empty} (hstep : ¬ step.projects) (hwrites : step.writes ⊆ names)
    (h : .ok (row', scope') ∈ step.outcomes row scope) : row'.discard names = row.discard names := by
  cases step with
  | columns block =>
    cases block with
    | nil => cases List.mem_singleton.1 h
    | cons c block => exact ColumnBlock.discard_outcomes hwrites h
  | dataset entries => exact discard_mergeOutcomes hwrites h
  | unrecognized v => cases List.mem_singleton.1 h
  | column c => exact Column.discard_outcomes (hwrites List.mem_cons_self) h
  | merge entries test => exact discard_mergeOutcomes hwrites h
  | filter test =>
    obtain ⟨-, rfl, -⟩ := ok_mem_filter h
    rfl
  | group column nested =>
    obtain ⟨rows, -, rfl, -⟩ := ok_mem_group h
    exact row.discard_insert_of_mem (hwrites List.mem_cons_self) _
  | select names => exact absurd rfl hstep
  | discard names => exact absurd rfl hstep
  | operator op => exact op.elim

/-- What the steps do not write stays in every branch, at its place. -/
theorem discard_outcomes {steps : List (Step Empty)} (hsteps : ∀ step ∈ steps, ¬ step.projects)
    (hwrites : steps.flatMap Step.writes ⊆ names) (h : .ok (row', scope') ∈ outcomes steps row scope) :
    row'.discard names = row.discard names := by
  induction steps generalizing row scope with
  | nil =>
    cases List.mem_singleton.1 h
    rfl
  | cons step rest ih =>
    obtain ⟨hstep, hrest⟩ := List.forall_mem_cons.1 hsteps
    obtain ⟨row₁, scope₁, hfirst, hlater⟩ := ok_mem_andThen h
    rw [List.flatMap_cons] at hwrites
    rw [ih hrest (List.append_subset.1 hwrites).2 hlater,
      Step.discard_outcomes hstep (List.append_subset.1 hwrites).1 hfirst]

end

theorem andThen_congr {as : List Outcome} {f g : Row → Scope → List Outcome}
    (h : ∀ row scope, .ok (row, scope) ∈ as → f row scope = g row scope) : andThen as f = andThen as g := by
  refine List.flatMap_congr fun a ha ↦ ?_
  cases a with
  | error e => rfl
  | ok b => exact h b.1 b.2 ha

theorem outcomes_filter (test : Row → Traced Bool) (steps : List (Step Empty)) (row : Row) (scope : Scope) :
    outcomes (.filter test :: steps) row scope = if (test row).value then outcomes steps row scope else [] := by
  rw [outcomes, Step.outcomes]
  split
  · exact List.append_nil _
  · rfl

/-- A filter behind steps is as good before them if it does not look at what they write. They may expand, merge,
filter and group, but an error of theirs would be gone where the filter drops the row at once. -/
theorem enumerate_filter_first {row : Row} {scope : Scope} {xs : List (Step Empty)} {test : Row → Traced Bool}
    (hxs : ∀ step ∈ xs, ¬ step.projects)
    (htest : ∀ r : Row, (test (r.discard (xs.flatMap Step.writes))).value = (test r).value)
    (hfree : (enumerate row scope xs).given.ErrorFree) (ys : List (Step Empty)) :
    (enumerate row scope (xs ++ [.filter test] ++ ys)).given =
      (enumerate row scope ([.filter test] ++ xs ++ ys)).given := by
  have hsame (row' : Row) (scope' : Scope) (h : .ok (row', scope') ∈ outcomes xs row scope) :
      (test row').value = (test row).value := by
    rw [← htest row', discard_outcomes hxs (List.Subset.refl _) h, htest row]
  have hbehind (row' : Row) (scope' : Scope) (h : .ok (row', scope') ∈ outcomes xs row scope) :
      outcomes (.filter test :: ys) row' scope' = if (test row).value then outcomes ys row' scope' else [] := by
    rw [outcomes_filter, hsame row' scope' h]
  have houtcomes : outcomes (xs ++ .filter test :: ys) row scope =
      outcomes (.filter test :: (xs ++ ys)) row scope := by
    rw [outcomes_append, outcomes_filter, outcomes_append, andThen_congr hbehind]
    cases (test row).value with
    | true => rfl
    | false =>
      obtain ⟨rows, hrows⟩ := reference_of_errorFree hfree
      refine List.flatMap_eq_nil_iff.2 fun x hx ↦ ?_
      cases x with
      | ok b => rfl
      | error e =>
        have herror : .error e ∈ reference row scope xs := List.mem_map_of_mem (f := Except.map Prod.fst) hx
        rw [hrows] at herror
        obtain ⟨r, -, hr⟩ := List.mem_map.1 herror
        cases hr
  funext n
  rw [List.append_assoc, List.append_assoc, List.singleton_append, List.singleton_append, given_enumerate,
    items_trace, reference, houtcomes, given_enumerate, items_trace, reference]

theorem given_filter_before_join :
    let row : Row := .ofList [("a", .bool true)]
    let xs : List (Step Empty) :=
      [.columns [⟨"b", .values [.null, .bool true]⟩], .join [.object [("b", .bool true), ("c", .null)]] "b",
        .group "g" [.column ⟨"a", .values [.null]⟩, .select []]]
    let test (r : Row) : Traced Bool := return (r.get? "a").any Value.isTrue
    let ys : List (Step Empty) := [.dataset [.object [], .null]]
    ((∀ step ∈ xs, ¬ step.projects) ∧
      (∀ r : Row, (test (r.discard (xs.flatMap Step.writes))).value = (test r).value) ∧
      (enumerate row row xs).given.ErrorFree) ∧
    (enumerate row row (xs ++ [.filter test] ++ ys)).given =
      (enumerate row row ([.filter test] ++ xs ++ ys)).given := by
  intro row xs test ys
  have hxs : ∀ step ∈ xs, ¬ step.projects := by simp [xs, Step.projects, Step.join]
  have htest (r : Row) : (test (r.discard (xs.flatMap Step.writes))).value = (test r).value := by
    have hwrites : "a" ∉ xs.flatMap Step.writes := by decide
    have hget : (r.discard (xs.flatMap Step.writes)).get? "a" = r.get? "a" := by
      rw [Record.get?_discard, if_neg hwrites]
    exact congrArg (Option.any Value.isTrue) hget
  have hrows : reference row row xs =
      [Record.ofList [("a", .bool true), ("b", .bool true), ("c", .null), ("g", .array [.object []])]].map .ok := rfl
  have hfree := errorFree_of_reference hrows
  exact ⟨⟨hxs, htest, hfree⟩, enumerate_filter_first hxs htest hfree ys⟩

end RowProduct
