import RowProduct.Proofs.Parallel

namespace RowProduct

open Traversal Feed

variable {Ω : Type}

def Feed.ErrorFree (s : Feed) : Prop := ∀ n e, s n ≠ some (.error e)

section

variable {row : Row} {scope : Scope} {steps : List (Step Empty)} {rows : List Row}

theorem given_of_reference (h : reference row scope steps = rows.map .ok) (n : Nat) :
    (enumerate row scope steps).given n = rows[n]?.map .ok := by
  have hrows : ¬ (rows.map (Except.ok : Row → Item)).any isError := by simp [isError]
  rw [given_enumerate, items_trace, h, cut, upTo_eq_self hrows, List.getElem?_map]

theorem errorFree_of_reference (h : reference row scope steps = rows.map .ok) :
    (enumerate row scope steps).given.ErrorFree := by
  intro n e he
  rw [given_of_reference h] at he
  cases hrow : rows[n]? <;> simp [hrow] at he

theorem endsAfter_of_reference (h : reference row scope steps = rows.map .ok) :
    EndsAfter none rows (enumerate row scope steps).given := by
  refine endsAfter_iff.2 ⟨fun n _ ↦ given_of_reference h n, ?_⟩
  rw [given_of_reference h, List.getElem?_eq_none (Nat.le_refl _)]
  rfl

theorem reference_of_errorFree (h : (enumerate row scope steps).given.ErrorFree) :
    ∃ rows : List Row, reference row scope steps = rows.map .ok := by
  obtain ⟨e, rows, hmapM, hends⟩ := exists_endsAfter_items (reference row scope steps)
  cases e with
  | none => exact ⟨rows, mapM_id_eq_ok hmapM⟩
  | some e =>
    have herror := (endsAfter_iff.1 hends).2
    rw [← items_trace, ← given_enumerate] at herror
    exact absurd herror (h rows.length e)

end

def Step.Ignores (column : String) : Step Empty → Prop
  | .filter test => ∀ row, (test (row.discard [column])).value = (test row).value
  | _ => True

/-- The rows are the same but for one column, and where the scope has that column both of them do. -/
structure DifferIn (column : String) (row row' : Row) (scope : Scope) : Prop where
  discard_eq : row.discard [column] = row'.discard [column]
  contains_of_scope : scope.contains column → row.contains column ∧ row'.contains column

theorem DifferIn.contains_or {column : String} {row row' : Row} {scope : Scope}
    (h : DifferIn column row row' scope) (added : Bool) (hscope : added || scope.contains column) :
    (added || row.contains column) ∧ (added || row'.contains column) := by
  cases added with
  | true => exact ⟨rfl, rfl⟩
  | false => exact h.contains_of_scope hscope

theorem parallel_differIn (column : String) : Parallel (DifferIn column) where
  insert name v h := by
    refine ⟨?_, ?_⟩
    · rw [Record.discard_insert, Record.discard_insert, h.discard_eq]
    · simp only [Record.contains_insert]
      exact h.contains_or _
  overlay top h := by
    refine ⟨?_, ?_⟩
    · rw [Record.discard_overlay, Record.discard_overlay, h.discard_eq]
    · simp only [Record.contains_overlay]
      exact h.contains_or _
  group name v h := by
    refine ⟨?_, fun hscope ↦ ?_⟩
    · rw [Record.discard_insert, Record.discard_insert, h.discard_eq]
    · simp only [Record.contains_insert, Bool.or_eq_true]
      exact (h.contains_of_scope hscope).imp .inr .inr

namespace DifferIn

variable {column : String} {row row' : Row} {scope : Scope} (h : DifferIn column row row' scope)
include h

-- The one column that could be in one row alone is in both of them when the scope has it.
theorem contains_eq {name : String} (hname : scope.contains name) : row.contains name = row'.contains name := by
  by_cases hcolumn : name = column
  · subst hcolumn
    obtain ⟨hrow, hrow'⟩ := h.contains_of_scope hname
    rw [hrow, hrow']
  · have heq := congrArg (Record.contains · name) h.discard_eq
    simpa [Record.contains_discard, hcolumn] using heq

theorem select_scope (names : List String) :
    scope.select (names.filter row.contains) = scope.select (names.filter row'.contains) :=
  Record.select_filter_congr (fun _ hname ↦ h.contains_eq hname) names

theorem select (names : List String) :
    DifferIn column (row.select names) (row'.select names) (scope.select (names.filter row'.contains)) := by
  refine ⟨?_, fun hscope ↦ ?_⟩
  · rw [Record.discard_select, Record.discard_select, h.discard_eq]
  · rw [Record.contains_select, Bool.and_eq_true] at hscope
    obtain ⟨hkept, hscope⟩ := hscope
    obtain ⟨hrow, hrow'⟩ := h.contains_of_scope hscope
    have hname : names.contains column := by
      rw [List.contains_iff_mem] at hkept ⊢
      exact List.mem_of_mem_filter hkept
    rw [Record.contains_select, Record.contains_select, hname, hrow, hrow']
    exact ⟨rfl, rfl⟩

theorem discard (names : List String) :
    DifferIn column (row.discard names) (row'.discard names) (scope.discard names) := by
  refine ⟨?_, fun hscope ↦ ?_⟩
  · rw [Record.discard_discard, Record.discard_discard row', h.discard_eq]
  · rw [Record.contains_discard, Bool.and_eq_true] at hscope
    obtain ⟨hkept, hscope⟩ := hscope
    obtain ⟨hrow, hrow'⟩ := h.contains_of_scope hscope
    rw [Record.contains_discard, Record.contains_discard, hkept, hrow, hrow']
    exact ⟨rfl, rfl⟩

end DifferIn

theorem keeps_differIn {column : String} {step : Step Empty} (hstep : step.Ignores column) :
    step.Keeps (DifferIn column) := by
  intro row row' scope h
  cases step with
  | filter test =>
    have htest : (test row).value = (test row').value := by rw [← hstep row, h.discard_eq, hstep row']
    rw [Step.outcomes, Step.outcomes, htest]
    split
    · exact forall₂_single h
    · exact .nil
  | select names =>
    simp only [Step.outcomes, Record.select_filter_contains, h.select_scope names]
    exact forall₂_single (h.select names)
  | discard names => exact forall₂_single (h.discard names)
  | _ =>
    refine (parallel_differIn column).keeps ?_ row row' scope h
    exact Bool.false_ne_true

theorem given_insert_column {row : Row} {scope : Scope} {column : String} {steps : List (Step Empty)}
    (hscope : scope.contains column = false) (hsteps : ∀ step ∈ steps, step.Ignores column) (v : Value)
    (n : Nat) :
    ((enumerate (row.insert column v) scope steps).given n).map (Except.map (·.discard [column])) =
      ((enumerate row scope steps).given n).map (Except.map (·.discard [column])) := by
  have hkeeps (step : Step Empty) (hstep : step ∈ steps) := keeps_differIn (hsteps step hstep)
  have hrow : DifferIn column (row.insert column v) row scope := by
    refine ⟨?_, fun h ↦ ?_⟩
    · exact row.discard_insert_of_mem List.mem_cons_self v
    · rw [hscope] at h
      cases h
  exact given_alike hkeeps (fun _ _ _ h ↦ h.discard_eq) hrow n

theorem given_liftAll [Operators Ω] (row : Row) (scope : Scope) (steps : List (Step Empty)) :
    (enumerate row scope (liftAll steps : List (Step Ω))).given = (enumerate row scope steps).given := by
  have h := given_enumerate_append row scope steps ([] : List (Step Ω))
  have hself := given_enumerate_append row scope steps ([] : List (Step Empty))
  rw [List.append_nil] at h hself
  rw [liftAll_self] at hself
  rw [h, hself]
  rfl

/-- A group changes nothing but its own column. -/
theorem enumerate_group_frame {row : Row} {scope : Scope} {column : String} {nested rest : List (Step Empty)}
    (hscope : scope.contains column = false) (hnested : (enumerate ∅ scope nested).given.ErrorFree)
    (hrest : ∀ step ∈ rest, step.Ignores column) :
    (∀ n, ((enumerate row scope (.group column nested :: rest)).given n).map
        (Except.map (·.discard [column])) =
      ((enumerate row scope rest).given n).map (Except.map (·.discard [column]))) ∧
    -- The steps in the group may be of any kind, as long as their run comes to its end without an error.
    ∀ (Ω : Type) [Operators Ω] (nested : List (Step Ω)) (rows : List Row),
      EndsAfter none rows (enumerate ∅ scope nested).given →
      ∀ n, ((enumerate row scope (.group column nested :: liftAll rest)).given n).map
          (Except.map (·.discard [column])) =
        ((enumerate row scope (liftAll rest : List (Step Ω))).given n).map
          (Except.map (·.discard [column])) := by
  have hgroup (Ω : Type) [Operators Ω] (nested : List (Step Ω)) (rows : List Row)
      (hends : EndsAfter none rows (enumerate ∅ scope nested).given) (n : Nat) :
      ((enumerate row scope (.group column nested :: liftAll rest)).given n).map
          (Except.map (·.discard [column])) =
        ((enumerate row scope (liftAll rest : List (Step Ω))).given n).map
          (Except.map (·.discard [column])) := by
    rw [given_enumerate_group hends, Option.elim_none, given_liftAll, given_liftAll]
    exact given_insert_column hscope hrest _ n
  refine ⟨fun n ↦ ?_, hgroup⟩
  obtain ⟨rows, hrows⟩ := reference_of_errorFree hnested
  have h := hgroup Empty nested rows (endsAfter_of_reference hrows) n
  rwa [liftAll_self] at h

theorem given_group_selected :
    let row : Row := .ofList [("a", .null)]
    let nested : List (Step Empty) := [.column ⟨"d", .values [.null, .bool true]⟩]
    let rest : List (Step Empty) :=
      [.select ["g", "a"], .filter fun row ↦ return row.contains "a", .column ⟨"g", .values [.null]⟩]
    (row.contains "g" = false ∧ (enumerate ∅ row nested).given.ErrorFree ∧ ∀ step ∈ rest, step.Ignores "g") ∧
      ∀ n, ((enumerate row row (.group "g" nested :: rest)).given n).map (Except.map (·.discard ["g"])) =
        ((enumerate row row rest).given n).map (Except.map (·.discard ["g"])) := by
  intro row nested rest
  have hrows : reference ∅ row nested =
      [Record.ofList [("d", .null)], Record.ofList [("d", .bool true)]].map .ok := rfl
  have hnested := errorFree_of_reference hrows
  have hscope : row.contains "g" = false := rfl
  have hrest : ∀ step ∈ rest, step.Ignores "g" := by
    simp [rest, Step.Ignores, Record.contains_discard, pure]
  exact ⟨⟨hscope, hnested, hrest⟩, (enumerate_group_frame hscope hnested hrest).1⟩

/-- The row without a column, with each of the objects in that column laid over it in turn. -/
def Record.unnest (r : Row) (column : String) : List Row :=
  match r.get? column with
  | some (.array items) => items.filterMap fun
    | .object d => some ((r.discard [column]).overlay d)
    | _ => none
  | _ => []

theorem Record.unnest_insert {r : Row} {column : String} (h : r.contains column = false) (nested : List Row) :
    (r.insert column (.array (nested.map Record.toValue))).unnest column =
      nested.map fun d ↦ r.overlay d.fields := by
  have hdiscard : (r.insert column (.array (nested.map Record.toValue))).discard [column] = r := by
    rw [discard_insert_of_mem _ List.mem_cons_self]
    exact discard_eq_self (by simpa using h)
  rw [unnest, get?_insert, if_pos rfl]
  simp only [hdiscard, List.filterMap_map]
  exact congrFun (List.filterMap_eq_map (f := fun d : Row ↦ r.overlay d.fields)) nested

theorem reference_group {scope : Scope} {nested : List (Step Empty)} {rows : List Row}
    (h : reference ∅ scope nested = rows.map .ok) (row : Row) (column : String) :
    reference row scope [.group column nested] =
      [.ok (row.insert column (.array (rows.map Record.toValue)))] := by
  rw [reference, outcomes, Step.outcomes_group, h, mapM_id_map_ok]
  rfl

theorem exists_grouped {nested : List (Step Empty)} (hnested : ∀ step ∈ nested, ¬ step.narrows)
    (column : String) {branches : List Outcome} {rows : List Row}
    (h : branches.flatMap (continued nested) = rows.map .ok) :
    ∃ groups : List (Row × List Row),
      branches.map (Except.map Prod.fst) = (groups.map Prod.fst).map .ok ∧
      branches.flatMap (continued [.group column nested]) =
        (groups.map fun g ↦ g.1.insert column (.array (g.2.map Record.toValue))).map .ok ∧
      rows = groups.flatMap fun g ↦ g.2.map fun d ↦ g.1.overlay d.fields := by
  induction branches generalizing rows with
  | nil =>
    cases List.map_eq_nil_iff.1 h.symm
    exact ⟨[], rfl, rfl, rfl⟩
  | cons b branches ih =>
    obtain ⟨first, others, rfl, hfirst, hothers⟩ := List.map_eq_append_iff.1 h.symm
    obtain ⟨groups, hbranches, hgroups, hrows⟩ := ih hothers.symm
    rcases b with e | ⟨row, scope⟩
    · cases first with
      | nil => cases hfirst
      | cons row first => cases (List.cons.inj hfirst).1
    · rw [continued, reference_frame row scope hnested] at hfirst
      obtain ⟨ds, hds, rfl⟩ := exists_of_map_eq_ok hfirst.symm
      refine ⟨(row, ds) :: groups, ?_, ?_, ?_⟩
      · rw [List.map_cons, hbranches]
        rfl
      · rw [List.flatMap_cons, continued, hgroups, reference_group hds row column]
        rfl
      · rw [List.flatMap_cons, ← hrows]

/-- The rows of a group, laid one after the other over the row that has it, are what its steps give without the
group, as long as they take nothing away and raise no error. -/
theorem enumerate_unnest {row : Row} {scope : Scope} {xs nested : List (Step Empty)} {column : String}
    (hnested : ∀ step ∈ nested, ¬ step.narrows)
    (hcolumn : ∀ n r, (enumerate row scope xs).given n = some (.ok r) → r.contains column = false)
    (hfree : (enumerate row scope (xs ++ nested)).given.ErrorFree) :
    (enumerate row scope (xs ++ [.group column nested])).given.ErrorFree ∧
    ∃ grouped rows : List Row,
      (∀ n, (enumerate row scope (xs ++ [.group column nested])).given n = grouped[n]?.map .ok) ∧
      (∀ n, (enumerate row scope (xs ++ nested)).given n = rows[n]?.map .ok) ∧
      (∀ r ∈ grouped, ∃ ds : List Row, r.get? column = some (.array (ds.map Record.toValue))) ∧
      rows = grouped.flatMap (Record.unnest · column) := by
  obtain ⟨rows, hrows⟩ := reference_of_errorFree hfree
  have hbranches := hrows
  rw [reference_append] at hbranches
  obtain ⟨groups, hxs, hgrouped, hunnested⟩ := exists_grouped hnested column hbranches
  rw [← reference_append] at hgrouped
  have hfresh (g : Row × List Row) (hg : g ∈ groups) : g.1.contains column = false := by
    obtain ⟨n, hn⟩ := List.mem_iff_getElem?.1 (List.mem_map_of_mem (f := Prod.fst) hg)
    refine hcolumn n g.1 ?_
    rw [given_of_reference hxs, hn]
    rfl
  refine ⟨errorFree_of_reference hgrouped, _, rows, given_of_reference hgrouped, given_of_reference hrows, ?_, ?_⟩
  · intro r hr
    obtain ⟨g, -, rfl⟩ := List.mem_map.1 hr
    exact ⟨g.2, by rw [Record.get?_insert, if_pos rfl]⟩
  · rw [List.flatMap_map, hunnested]
    exact List.flatMap_congr fun g hg ↦ (Record.unnest_insert (hfresh g hg) g.2).symm

theorem given_unnest_rewritten :
    let xs : List (Step Empty) := [.column ⟨"a", .values [.null, .bool true]⟩, .group "h" []]
    let nested : List (Step Empty) :=
      [.column ⟨"d", .values [.null, .bool true]⟩, .dataset [.object [("a", .bool false)]]]
    ((∀ step ∈ nested, ¬ step.narrows) ∧
      (∀ n r, (enumerate ∅ ∅ xs).given n = some (.ok r) → r.contains "g" = false) ∧
      (enumerate ∅ ∅ (xs ++ nested)).given.ErrorFree) ∧
    (enumerate ∅ ∅ (xs ++ [.group "g" nested])).given.ErrorFree ∧
    ∃ grouped rows : List Row,
      (∀ n, (enumerate ∅ ∅ (xs ++ [.group "g" nested])).given n = grouped[n]?.map .ok) ∧
      (∀ n, (enumerate ∅ ∅ (xs ++ nested)).given n = rows[n]?.map .ok) ∧
      (∀ r ∈ grouped, ∃ ds : List Row, r.get? "g" = some (.array (ds.map Record.toValue))) ∧
      rows = grouped.flatMap (Record.unnest · "g") := by
  intro xs nested
  let h : String × Value := ("h", .array [.object []])
  let before : List Row := [.ofList [("a", .null), h], .ofList [("a", .bool true), h]]
  have hxs : reference ∅ ∅ xs = before.map .ok := rfl
  have hunnested : reference ∅ ∅ (xs ++ nested) =
      [Record.ofList [("a", .bool false), h, ("d", .null)],
        Record.ofList [("a", .bool false), h, ("d", .bool true)],
        Record.ofList [("a", .bool false), h, ("d", .null)],
        Record.ofList [("a", .bool false), h, ("d", .bool true)]].map .ok := rfl
  have hnested : ∀ step ∈ nested, ¬ step.narrows := by simp [nested, Step.narrows]
  have hcolumn (n : Nat) (r : Row) (hr : (enumerate ∅ ∅ xs).given n = some (.ok r)) :
      r.contains "g" = false := by
    have hbefore : ∀ r ∈ before, r.contains "g" = false := by decide
    rw [given_of_reference hxs] at hr
    obtain ⟨r', hr', heq⟩ := Option.map_eq_some_iff.1 hr
    cases heq
    exact hbefore r (List.mem_of_getElem? hr')
  have hfree := errorFree_of_reference hunnested
  exact ⟨⟨hnested, hcolumn, hfree⟩, enumerate_unnest hnested hcolumn hfree⟩

end RowProduct
