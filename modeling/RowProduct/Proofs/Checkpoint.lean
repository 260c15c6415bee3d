import RowProduct.Proofs.Coherence
import RowProduct.Proofs.Metering

namespace RowProduct

open Traversal Feed

theorem exists_endsAfter_items (items : List Item) :
    ∃ e rows, items.mapM id = e.elim (.ok rows) .error ∧ EndsAfter e rows fun n ↦ (cut items)[n]? := by
  induction items with
  | nil => exact ⟨none, [], rfl, rfl⟩
  | cons x items ih =>
    cases x with
    | error e => exact ⟨some e, [], rfl, rfl⟩
    | ok row =>
      obtain ⟨e, rows, hmapM, hends⟩ := ih
      refine ⟨e, row :: rows, ?_, rfl, hends⟩
      rw [mapM_id_cons_ok, hmapM]
      cases e <;> rfl

theorem product_value (step : Step Empty) (rest : List (Step Empty)) :
    (product (step :: rest)).value = (reference ∅ ∅ (step :: rest)).mapM id := by
  obtain ⟨e, rows, hmapM, hends⟩ := exists_endsAfter_items (reference ∅ ∅ (step :: rest))
  rw [hmapM]
  refine Runner.default.collect_of_endsAfter step rest (hends.congr fun n _ ↦ ?_)
  rw [Runner.given_start, given_enumerate, items_trace]
  rfl

theorem Lockstep.outcomes {R : Row → Scope → Prop} (hR : Lockstep R) {steps : List (Step Empty)}
    (hsteps : ∀ step ∈ steps, step.groupColumn? = none) {row row' : Row} {scope scope' : Scope}
    (h : R row scope) (hout : .ok (row', scope') ∈ RowProduct.outcomes steps row scope) : R row' scope' := by
  induction steps generalizing row scope with
  | nil =>
    cases List.mem_singleton.1 hout
    exact h
  | cons step rest ih =>
    obtain ⟨row₁, scope₁, hstep, hrest⟩ := ok_mem_andThen hout
    obtain ⟨hgroup, hgroups⟩ := List.forall_mem_cons.1 hsteps
    exact ih hgroups (hR.step hgroup h hstep) hrest

theorem outcomes_of_no_groups {steps : List (Step Empty)} (hsteps : ∀ step ∈ steps, step.groupColumn? = none)
    {row : Row} {rows : List Row} (h : (reference row row steps).mapM id = .ok rows) :
    outcomes steps row row = rows.map fun row ↦ .ok (row, row) := by
  have hrows : (outcomes steps row row).map (Except.map Prod.fst) = rows.map .ok := mapM_id_eq_ok h
  have heq (x : Outcome) (hx : x ∈ outcomes steps row row) :
      ((Except.map fun row ↦ (row, row)) ∘ Except.map Prod.fst) x = x := by
    rcases x with e | ⟨row', scope'⟩
    · rfl
    · cases lockstep_eq.outcomes hsteps rfl hx
      rfl
  calc outcomes steps row row
      = ((outcomes steps row row).map (Except.map Prod.fst)).map (Except.map fun row ↦ (row, row)) := by
        rw [List.map_map, List.map_congr_left heq, List.map_id']
    _ = rows.map fun row ↦ .ok (row, row) := by
        rw [hrows, List.map_map]
        rfl

theorem entryOutcomes_toValue (row : Row) (index : Nat) :
    entryOutcomes none ∅ ∅ (row.toValue, index) = [.ok (row, row)] := by
  rw [Record.toValue, entryOutcomes, Option.all_none, if_pos rfl, Record.empty_overlay]

theorem outcomes_ofRows (rows : List Row) :
    outcomes [.ofRows rows] ∅ ∅ = rows.map fun row ↦ .ok (row, row) := by
  calc outcomes [.ofRows rows] ∅ ∅
      = (rows.map Record.toValue).zipIdx.flatMap (entryOutcomes none ∅ ∅) := andThen_ok _
    _ = rows.zipIdx.flatMap fun entry ↦ [.ok (entry.1, entry.1)] := by
        rw [List.zipIdx_map, List.flatMap_map]
        exact congrArg rows.zipIdx.flatMap (funext fun entry ↦ entryOutcomes_toValue entry.1 entry.2)
    _ = (rows.zipIdx.map Prod.fst).map fun row ↦ .ok (row, row) := by
        rw [← List.map_eq_flatMap, List.map_map]
        rfl
    _ = rows.map fun row ↦ .ok (row, row) := by rw [List.zipIdx_map_fst]

/-- What a program without groups has collected may stand for it as a dataset before any steps. -/
theorem product_checkpoint {xs : List (Step Empty)} (hxs : xs ≠ [])
    (hgroups : ∀ step ∈ xs, step.groupColumn? = none) {rows : List Row} (h : (product xs).value = .ok rows)
    (ys : List (Step Empty)) : (product (xs ++ ys)).value = (product (.ofRows rows :: ys)).value := by
  cases xs with
  | nil => exact absurd rfl hxs
  | cons step rest =>
    rw [product_value] at h
    have hreference : reference ∅ ∅ (step :: rest ++ ys) = reference ∅ ∅ ([.ofRows rows] ++ ys) := by
      rw [reference, reference, outcomes_append, outcomes_append, outcomes_of_no_groups hgroups h,
        outcomes_ofRows]
    rw [List.cons_append, product_value, ← List.cons_append, hreference, List.singleton_append, product_value]

theorem product_checkpoint_select :
    let xs : List (Step Empty) :=
      [.column ⟨"a", .values [.null, .bool true]⟩, .dataset [.object [("b", .null)]], .select ["b", "a"]]
    let rows : List Row := [.ofList [("b", .null), ("a", .null)], .ofList [("b", .null), ("a", .bool true)]]
    let ys : List (Step Empty) := [.column ⟨"b", .values [.bool true, .bool false]⟩]
    (xs ≠ [] ∧ (∀ step ∈ xs, step.groupColumn? = none) ∧ (product xs).value = .ok rows) ∧
      (product (xs ++ ys)).value = (product (.ofRows rows :: ys)).value := by
  intro xs rows ys
  have hxs : xs ≠ [] := List.cons_ne_nil _ _
  have hgroups : ∀ step ∈ xs, step.groupColumn? = none := by simp [xs, Step.groupColumn?]
  have hrows : (product xs).value = .ok rows := rfl
  exact ⟨⟨hxs, hgroups, hrows⟩, product_checkpoint hxs hgroups hrows ys⟩

end RowProduct
