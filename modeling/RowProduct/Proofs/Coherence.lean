import RowProduct.Proofs.Sugar

namespace RowProduct

open Traversal Visit

def Step.groupColumn? : Step Empty → Option String
  | .group name _ => some name
  | _ => none

/-- The states in which a program from the empty row and scope is dispatched: a row, a scope and the steps that
remain. A step gives way to what it stands for and leads on to each of its branches; a group leads into its own
steps as well. The number says how many groups the state lies in, the names are the columns of the groups that
have been executed before it at the same depth. -/
inductive Reaches (program : List (Step Empty)) :
    Nat → List String → Row → Scope → List (Step Empty) → Prop
  | start : Reaches program 0 [] ∅ ∅ program
  | rewrite {depth : Nat} {groups : List String} {row : Row} {scope : Scope} {step : Step Empty}
      {rest : List (Step Empty)} :
      Reaches program depth groups row scope (step :: rest) →
      Reaches program depth groups row scope (step.rewritten ++ rest)
  | branch {depth : Nat} {groups : List String} {row row' : Row} {scope scope' : Scope} {step : Step Empty}
      {rest : List (Step Empty)} :
      Reaches program depth groups row scope (step :: rest) →
      .ok (row', scope') ∈ step.outcomes row scope →
      Reaches program depth (step.groupColumn?.toList ++ groups) row' scope' rest
  | nest {depth : Nat} {groups : List String} {row : Row} {scope : Scope} {column : String}
      {steps rest : List (Step Empty)} :
      Reaches program depth groups row scope (.group column steps :: rest) →
      Reaches program (depth + 1) [] ∅ scope steps

/-- A relation of rows and scopes that is kept by whatever a step other than a group does to the two. -/
structure Lockstep (R : Row → Scope → Prop) : Prop where
  insert {row : Row} {scope : Scope} (name : String) (v : Value) :
    R row scope → R (row.insert name v) (scope.insert name v)
  overlay {row : Row} {scope : Scope} (top : Fields) : R row scope → R (row.overlay top) (scope.overlay top)
  select {row : Row} {scope : Scope} (names : List String) :
    R row scope → R (row.select (names.filter row.contains)) (scope.select (names.filter row.contains))
  discard {row : Row} {scope : Scope} (names : List String) :
    R row scope → R (row.discard names) (scope.discard names)

namespace Lockstep

variable {R : Row → Scope → Prop} (hR : Lockstep R) {row row' : Row} {scope scope' : Scope}
include hR

theorem column {c : Column} (h : R row scope) (hc : .ok (row', scope') ∈ c.outcomes row scope) :
    R row' scope' := by
  obtain ⟨v, rfl, rfl⟩ := ok_mem_column hc
  exact hR.insert c.name v h

theorem block {block : ColumnBlock} (h : R row scope)
    (hblock : .ok (row', scope') ∈ ColumnBlock.outcomes block row scope) : R row' scope' := by
  induction block generalizing row scope with
  | nil =>
    cases List.mem_singleton.1 hblock
    exact h
  | cons c block ih =>
    obtain ⟨row₁, scope₁, hc, hrest⟩ := ok_mem_andThen hblock
    exact ih (hR.column h hc) hrest

theorem merge {test : Option EntryTest} {entries : List Value} (h : R row scope)
    (hmerge : .ok (row', scope') ∈ mergeOutcomes test row scope entries) : R row' scope' := by
  obtain ⟨entry, -, -, rfl, rfl⟩ := ok_mem_mergeOutcomes hmerge
  exact hR.overlay entry h

theorem step {step : Step Empty} (hstep : step.groupColumn? = none) (h : R row scope)
    (hout : .ok (row', scope') ∈ step.outcomes row scope) : R row' scope' := by
  cases step with
  | columns block =>
    cases block with
    | nil => cases List.mem_singleton.1 hout
    | cons c block => exact hR.block h hout
  | dataset entries => exact hR.merge h hout
  | unrecognized v => cases List.mem_singleton.1 hout
  | column c => exact hR.column h hout
  | merge entries test => exact hR.merge h hout
  | filter test =>
    obtain ⟨-, rfl, rfl⟩ := ok_mem_filter hout
    exact h
  | group column steps => cases hstep
  | select names =>
    cases List.mem_singleton.1 hout
    exact hR.select names h
  | discard names =>
    cases List.mem_singleton.1 hout
    exact hR.discard names h
  | operator op => exact op.elim

end Lockstep

theorem lockstep_eq : Lockstep Eq where
  insert _ _ h := by rw [h]
  overlay _ h := by rw [h]
  select _ h := by rw [h]
  discard _ h := by rw [h]

/-- Every column of the row but these is a column of the scope, with the same value. -/
def Covers (groups : List String) (row : Row) (scope : Scope) : Prop :=
  ∀ name ∉ groups, ∀ v, row.get? name = some v → scope.get? name = some v

theorem lockstep_covers (groups : List String) : Lockstep (Covers groups) where
  insert name v h other hother w hw := by
    rw [Record.get?_insert] at hw ⊢
    by_cases hname : other = name
    · rwa [if_pos hname] at hw ⊢
    · rw [if_neg hname] at hw ⊢
      exact h other hother w hw
  overlay top h name hname v hv := by
    rw [Record.get?_overlay] at hv ⊢
    cases htop : top.reverse.lookup name with
    | some w => rwa [htop] at hv
    | none =>
      rw [htop] at hv
      exact h name hname v hv
  select {row scope} names h name hname v hv := by
    rw [Record.get?_select] at hv ⊢
    by_cases hkept : name ∈ names.filter row.contains
    · rw [if_pos hkept] at hv ⊢
      exact h name hname v hv
    · rw [if_neg hkept] at hv
      cases hv
  discard names h name hname v hv := by
    rw [Record.get?_discard] at hv ⊢
    by_cases hdropped : name ∈ names
    · rw [if_pos hdropped] at hv
      cases hv
    · rw [if_neg hdropped] at hv ⊢
      exact h name hname v hv

theorem Covers.group {groups : List String} {row row' : Row} {scope scope' : Scope} {column : String}
    {steps : List (Step Empty)} (h : Covers groups row scope)
    (hout : .ok (row', scope') ∈ (Step.group column steps).outcomes row scope) :
    Covers (column :: groups) row' scope' := by
  obtain ⟨rows, -, rfl, rfl⟩ := ok_mem_group hout
  intro name hname v hv
  obtain ⟨hcolumn, hgroups⟩ := not_or.1 (mt List.mem_cons.2 hname)
  rw [Record.get?_insert, if_neg hcolumn] at hv
  exact h name hgroups v hv

namespace Reaches

variable {program steps : List (Step Empty)} {depth : Nat} {groups : List String} {row : Row} {scope : Scope}

-- The columns that need not be covered grow along a branch, and a group starts again with none.
theorem covers (h : Reaches program depth groups row scope steps) : Covers groups row scope := by
  induction h with
  | start => intro name _ v hv; cases hv
  | rewrite _ ih => exact ih
  | @branch depth groups row row' scope scope' step rest _ hout ih =>
    cases hstep : step.groupColumn? with
    | none => exact (lockstep_covers groups).step hstep ih hout
    | some column =>
      cases step with
      | group column steps => cases hstep; exact ih.group hout
      | _ => cases hstep
  | nest _ ih => intro name _ v hv; cases hv

theorem row_eq_scope (h : Reaches program depth groups row scope steps) (hdepth : depth = 0)
    (hgroups : groups = []) : row = scope := by
  -- A state without groups behind it comes from one without groups, so the equation is there to be kept.
  induction h with
  | start => rfl
  | rewrite _ ih => exact ih hdepth hgroups
  | @branch depth groups row row' scope scope' step rest _ hout ih =>
    obtain ⟨hstep, hgroups⟩ := List.append_eq_nil_iff.1 hgroups
    exact lockstep_eq.step (Option.toList_eq_nil_iff.1 hstep) (ih hdepth hgroups) hout
  | nest _ ih => cases hdepth

end Reaches

namespace Visit

variable {e : Event} {vs : List Visit}

theorem event_mem_andThen {f : Row → Scope → List Visit} (h : .event e ∈ andThen vs f) :
    .event e ∈ vs ∨ ∃ row scope, .outcome (.ok (row, scope)) ∈ vs ∧ .event e ∈ f row scope := by
  obtain ⟨v, hv, he⟩ := List.mem_flatMap.1 h
  rcases v with e' | e' | b
  · cases List.mem_singleton.1 he
    exact .inl hv
  · cases List.mem_singleton.1 he
  · exact .inr ⟨b.1, b.2, hv, he⟩

theorem event_mem_gathered {use : List Row → List Visit} (h : .event e ∈ gathered use vs) :
    .event e ∈ vs ∨ ∃ rows, .event e ∈ use rows := by
  induction vs generalizing use with
  | nil => exact .inr ⟨[], h⟩
  | cons v vs ih =>
    rcases v with e' | e' | b
    · rcases List.mem_cons.1 h with he | h
      · exact .inl (he ▸ List.mem_cons_self)
      · exact (ih h).imp_left (List.mem_cons_of_mem _)
    · cases List.mem_singleton.1 h
    · rcases ih h with h | ⟨rows, hrows⟩
      · exact .inl (List.mem_cons_of_mem _ h)
      · exact .inr ⟨b.1 :: rows, hrows⟩

theorem event_mem_of_eventsBefore {n : Nat} (h : e ∈ eventsBefore n vs) : .event e ∈ vs := by
  induction vs generalizing n with
  | nil => cases n <;> cases h
  | cons v vs ih =>
    cases n with
    | zero => cases h
    | succ n =>
      cases v with
      | event e' =>
        rcases List.mem_cons.1 h with he | h
        · exact he ▸ List.mem_cons_self
        · exact List.mem_cons_of_mem _ (ih h)
      | outcome x => exact List.mem_cons_of_mem _ (ih h)

theorem event_mem_of_calls {events : List Event} {outcomes : List Outcome}
    (h : event e ∈ events.map event ++ outcomes.map outcome) : e ∈ events := by
  rcases List.mem_append.1 h with h | h
  · obtain ⟨e', he', he⟩ := List.mem_map.1 h
    cases he
    exact he'
  · obtain ⟨x, -, hx⟩ := List.mem_map.1 h
    cases hx

theorem mem_filterMap_outcome {x : Outcome} (h : .outcome x ∈ vs) : x ∈ vs.filterMap outcome? :=
  List.mem_filterMap.2 ⟨_, h, rfl⟩

end Visit

def Step.called : Step Empty → Row → Scope → List Event
  | .column c, _, scope => (c.resolve scope).events
  | .merge entries (some test), _, scope => entries.flatMap fun
    | .object entry => (test scope entry).events
    | _ => []
  | .filter test, row, _ => (test row).events
  | _, _, _ => []

def Located (program : List (Step Empty)) (e : Event) : Prop :=
  ∃ depth groups row scope step rest, Reaches program depth groups row scope (step :: rest) ∧
    (e = .dispatch row scope step.kind rest.length ∨ e ∈ step.called row scope)

section

variable {program : List (Step Empty)} {depth : Nat} {groups : List String} {row : Row} {scope : Scope}
variable {rest : List (Step Empty)} {e : Event}

theorem located_column {c : Column} (h : Reaches program depth groups row scope (.column c :: rest))
    (he : .event e ∈ c.visits row scope) : Located program e :=
  ⟨depth, groups, row, scope, .column c, rest, h, .inr (event_mem_of_calls he)⟩

theorem located_block {block : ColumnBlock}
    (h : Reaches program depth groups row scope (block.map .column ++ rest))
    (he : .event e ∈ ColumnBlock.visits rest.length block row scope) : Located program e := by
  induction block generalizing groups row scope with
  | nil => cases List.mem_singleton.1 he
  | cons c block ih =>
    rcases List.mem_cons.1 he with he | he
    · cases he
      refine ⟨depth, groups, row, scope, _, _, h, .inl ?_⟩
      simp [Step.kind]
    · rcases event_mem_andThen he with he | ⟨row', scope', hc, he⟩
      · exact located_column h he
      · have hout := mem_filterMap_outcome hc
        rw [Column.outcomes_visits] at hout
        exact ih (h.branch hout) he

theorem located_merge {entries : List Value} {test : Option EntryTest} (hdispatch : e.isDispatch)
    (h : Reaches program depth groups row scope (.merge entries test :: rest))
    (he : .event e ∈ mergeVisits test row scope entries) : Located program e := by
  obtain ⟨⟨v, index⟩, hv, he⟩ := List.mem_flatMap.1 he
  have hcalls := event_mem_of_calls he
  refine ⟨depth, groups, row, scope, _, rest, h, .inr ?_⟩
  cases v with
  | object entry =>
    cases test with
    | none => cases hcalls
    | some test => exact List.mem_flatMap.2 ⟨_, List.fst_mem_of_mem_zipIdx hv, hcalls⟩
  | _ =>
    -- A rejected entry is no dispatch.
    cases List.mem_singleton.1 hcalls
    cases hdispatch

end

mutual

-- A step is visited in a state that is reached, and whatever is visited in it is reached from there.
theorem Step.located_visits {program : List (Step Empty)} {e : Event} (hdispatch : e.isDispatch) :
    ∀ (step : Step Empty) {depth : Nat} {groups : List String} {row : Row} {scope : Scope}
      {rest : List (Step Empty)}, Reaches program depth groups row scope (step :: rest) →
      .event e ∈ step.visits rest.length row scope → Located program e
  | .columns [], _, _, _, _, _, _, he => by cases List.mem_singleton.1 he
  | .columns (c :: block), _, _, _, _, _, h, he => located_block h.rewrite he
  | .dataset entries, _, _, _, _, _, h, he => by
    rcases List.mem_cons.1 he with he | he
    · cases he
      exact ⟨_, _, _, _, _, _, h.rewrite, .inl rfl⟩
    · exact located_merge hdispatch h.rewrite he
  | .unrecognized v, _, _, _, _, _, _, he => by cases List.mem_singleton.1 he
  | .column c, _, _, _, _, _, h, he => located_column h he
  | .merge entries test, _, _, _, _, _, h, he => located_merge hdispatch h he
  | .filter test, _, _, _, _, _, h, he => by
    refine ⟨_, _, _, _, _, _, h, .inr ?_⟩
    rcases List.mem_append.1 he with he | he
    · obtain ⟨e', he', hee⟩ := List.mem_map.1 he
      cases hee
      exact he'
    · split at he
      · cases List.mem_singleton.1 he
      · cases he
  | .group column steps, _, _, _, _, _, h, he => by
    rcases event_mem_gathered he with he | ⟨rows, hrows⟩
    · exact located_visits hdispatch steps h.nest he
    · rcases List.mem_cons.1 hrows with he | he
      · cases he
        cases hdispatch
      · cases List.mem_singleton.1 he
  | .select names, _, _, _, _, _, _, he => by cases List.mem_singleton.1 he
  | .discard names, _, _, _, _, _, _, he => by cases List.mem_singleton.1 he
  | .operator op, _, _, _, _, _, _, _ => op.elim

theorem located_visits {program : List (Step Empty)} {e : Event} (hdispatch : e.isDispatch) :
    ∀ (steps : List (Step Empty)) {depth : Nat} {groups : List String} {row : Row} {scope : Scope},
      Reaches program depth groups row scope steps → .event e ∈ visits 0 steps row scope → Located program e
  | [], _, _, _, _, _, he => by cases List.mem_singleton.1 he
  | step :: rest, _, _, _, _, h, he => by
    rcases List.mem_cons.1 he with he | he
    · cases he
      exact ⟨_, _, _, _, _, _, h, .inl rfl⟩
    · rcases event_mem_andThen he with he | ⟨row', scope', hout, he⟩
      · exact Step.located_visits hdispatch step h he
      · have hstep := mem_filterMap_outcome hout
        rw [Step.outcomes_visits] at hstep
        exact located_visits hdispatch rest (h.branch hstep) he

end

theorem Reaches.outcomes {program steps : List (Step Empty)} {depth : Nat} {groups : List String}
    {row row' : Row} {scope scope' : Scope} (h : Reaches program depth groups row scope steps)
    (hout : .ok (row', scope') ∈ outcomes steps row scope) :
    ∃ groups', Reaches program depth groups' row' scope' [] := by
  induction steps generalizing groups row scope with
  | nil =>
    cases List.mem_singleton.1 hout
    exact ⟨groups, h⟩
  | cons step rest ih =>
    obtain ⟨row₁, scope₁, hstep, hrest⟩ := ok_mem_andThen hout
    exact ih (h.branch hstep) hrest

/-- The dispatches of a program happen in states that it reaches, and its rows are those of the states without
steps. In every such state the row and the scope are the same, unless a group has been executed or entered
before; in any case a column of the row that is not that of a group executed before at this depth is a column of
the scope with the same value. A nested program starts from the empty row and the scope around it. -/
theorem enumerate_coherent (program : List (Step Empty)) :
    (∀ n row scope kind remaining,
      .dispatch row scope kind remaining ∈ (enumerate ∅ ∅ program).reported n →
      Located program (.dispatch row scope kind remaining)) ∧
    (∀ n row, (enumerate ∅ ∅ program).given n = some (.ok row) →
      ∃ groups scope, Reaches program 0 groups row scope []) ∧
    (∀ depth groups row scope steps, Reaches program depth groups row scope steps →
      (depth = 0 → groups = [] → row = scope) ∧
      ∀ name ∉ groups, ∀ v, row.get? name = some v → scope.get? name = some v) ∧
    ∀ row scope column step (steps rest : List (Step Empty)), ∃ later,
      (enumerate row scope (.group column (step :: steps) :: rest)).reported 1 =
        .dispatch row scope "group" rest.length :: .dispatch ∅ scope step.kind steps.length :: later := by
  refine ⟨?_, ?_, ?_, ?_⟩
  · intro n row scope kind remaining he
    rw [reported_enumerate] at he
    have hvisit := mem_of_mem_upTo (event_mem_of_eventsBefore he)
    exact located_visits rfl program .start hvisit
  · intro n row hrow
    rw [given_enumerate, items_trace] at hrow
    have hreference := mem_of_mem_upTo (List.mem_of_getElem? hrow)
    obtain ⟨x, hx, hxrow⟩ := List.mem_map.1 hreference
    cases x with
    | error e => cases hxrow
    | ok b =>
      cases hxrow
      obtain ⟨groups, h⟩ := Reaches.start.outcomes hx
      exact ⟨groups, b.2, h⟩
  · intro depth groups row scope steps h
    exact ⟨h.row_eq_scope, h.covers⟩
  · intro row scope column step steps rest
    simp only [enumerate, expandAll, dispatched, Step.expand, gather, reported_report_succ]
    exact ⟨_, rfl⟩

theorem covers_in_group :
    ∃ (program : List (Step Empty)) (row : Row) (scope : Scope), Reaches program 1 [] row scope [] ∧
      row.names = ["d"] ∧ scope.names = ["a", "d"] ∧
      ∀ name ∉ ([] : List String), ∀ v, row.get? name = some v → scope.get? name = some v := by
  let nested : List (Step Empty) := [.column ⟨"d", .values [.null]⟩]
  let program : List (Step Empty) := [.column ⟨"a", .values [.null]⟩, .group "g" nested]
  have hgroup : Reaches program 0 [] ((∅ : Row).insert "a" .null) ((∅ : Scope).insert "a" .null)
      [.group "g" nested] := Reaches.start.branch (List.mem_singleton.2 rfl)
  have hend : Reaches program 1 [] ((∅ : Row).insert "d" .null)
      (((∅ : Scope).insert "a" .null).insert "d" .null) [] := hgroup.nest.branch (List.mem_singleton.2 rfl)
  exact ⟨program, _, _, hend, by decide, by decide, ((enumerate_coherent program).2.2.1 _ _ _ _ _ hend).2⟩

end RowProduct
