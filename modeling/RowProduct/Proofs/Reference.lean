import RowProduct.Enumeration

namespace RowProduct

variable {ε α : Type}

def upTo (stop : α → Bool) : List α → List α
  | [] => []
  | a :: as => if stop a then [a] else a :: upTo stop as

def isError : Except ε α → Bool
  | .ok _ => false
  | .error _ => true

def cut (outcomes : List (Except ε α)) : List (Except ε α) := upTo isError outcomes

abbrev Outcome := Except Error (Row × Scope)

/-- Every branch of a list is taken further in its place; errors stay. -/
def andThen (outcomes : List Outcome) (further : Row → Scope → List Outcome) : List Outcome :=
  outcomes.flatMap fun
    | .ok (row, scope) => further row scope
    | .error e => [.error e]

def Column.outcomes (c : Column) (row : Row) (scope : Scope) : List Outcome :=
  match (c.resolve scope).value with
  | .ok values => values.map fun v ↦ .ok (row.insert c.name v, scope.insert c.name v)
  | .error e => [.error e]

def ColumnBlock.outcomes : ColumnBlock → Row → Scope → List Outcome
  | [], row, scope => [.ok (row, scope)]
  | c :: block, row, scope => andThen (c.outcomes row scope) (ColumnBlock.outcomes block)

def entryOutcomes (test : Option EntryTest) (row : Row) (scope : Scope) : Value × Nat → List Outcome
  | (.object entry, _) =>
    if test.all fun test ↦ (test scope entry).value then [.ok (row.overlay entry, scope.overlay entry)]
    else []
  | (v, index) => [.error (.ofEntry index v)]

def mergeOutcomes (test : Option EntryTest) (row : Row) (scope : Scope) (entries : List Value) :
    List Outcome :=
  entries.zipIdx.flatMap (entryOutcomes test row scope)

mutual

def Step.outcomes : Step Empty → Row → Scope → List Outcome
  | .columns [], _, _ => [.error (.ofStep (.object []))]
  | .columns (c :: block), row, scope => ColumnBlock.outcomes (c :: block) row scope
  | .dataset entries, row, scope => mergeOutcomes none row scope entries
  | .unrecognized v, _, _ => [.error (.ofStep v)]
  | .column c, row, scope => c.outcomes row scope
  | .merge entries test, row, scope => mergeOutcomes test row scope entries
  | .filter test, row, scope => if (test row).value then [.ok (row, scope)] else []
  | .group column steps, row, scope =>
    -- All rows of the nested program, or its first error.
    match (outcomes steps ∅ scope).mapM id with
    | .ok nested => [.ok (row.insert column (.array (nested.map fun b ↦ b.1.toValue)), scope)]
    | .error e => [.error e]
  | .select names, row, scope =>
    let kept := names.filter row.contains
    [.ok (row.select kept, scope.select kept)]
  | .discard names, row, scope => [.ok (row.discard names, scope.discard names)]
  | .operator op, _, _ => op.elim

/-- The branches at the end of a program, in order. Those behind an error are listed as well. -/
def outcomes : List (Step Empty) → Row → Scope → List Outcome
  | [], row, scope => [.ok (row, scope)]
  | step :: rest, row, scope => andThen (step.outcomes row scope) (outcomes rest)

end

def reference (row : Row) (scope : Scope) (steps : List (Step Empty)) : List Item :=
  (outcomes steps row scope).map (Except.map Prod.fst)

section

variable {stop : α → Bool}

theorem upTo_append (as bs : List α) :
    upTo stop (as ++ bs) = if as.any stop then upTo stop as else as ++ upTo stop bs := by
  induction as with
  | nil => rfl
  | cons a as ih =>
    cases ha : stop a with
    | true => simp [upTo, ha]
    | false =>
      simp only [List.cons_append, upTo, ha, List.any_cons, Bool.false_or, Bool.false_eq_true,
        ↓reduceIte, ih]
      split <;> rfl

theorem any_upTo (as : List α) : (upTo stop as).any stop = as.any stop := by
  induction as with
  | nil => rfl
  | cons a as ih => cases ha : stop a <;> simp [upTo, ha, ih]

theorem upTo_upTo (as : List α) : upTo stop (upTo stop as) = upTo stop as := by
  induction as with
  | nil => rfl
  | cons a as ih => cases ha : stop a <;> simp [upTo, ha, ih]

theorem upTo_eq_self {as : List α} (h : ¬ as.any stop) : upTo stop as = as := by
  have hnil := @upTo_append _ stop as []
  rwa [List.append_nil, if_neg h, upTo, List.append_nil] at hnil

theorem upTo_map {β : Type} {stop' : β → Bool} {f : α → β} (hf : ∀ a, stop' (f a) = stop a) (as : List α) :
    (upTo stop as).map f = upTo stop' (as.map f) := by
  induction as with
  | nil => rfl
  | cons a as ih =>
    rw [List.map_cons, upTo, upTo, hf]
    split
    · rfl
    · rw [List.map_cons, ih]

theorem filter_upTo {keep : α → Bool} (h : ∀ a, stop a → keep a) (as : List α) :
    (upTo stop as).filter keep = upTo stop (as.filter keep) := by
  induction as with
  | nil => rfl
  | cons a as ih =>
    cases hstop : stop a with
    | true =>
      rw [List.filter_cons_of_pos (h a hstop), upTo, if_pos hstop, upTo, if_pos hstop,
        List.filter_cons_of_pos (h a hstop), List.filter_nil]
    | false =>
      have hcons (as : List α) : upTo stop (a :: as) = a :: upTo stop as := by
        rw [upTo, hstop, if_neg Bool.false_ne_true]
      rw [hcons, List.filter_cons, List.filter_cons, ih]
      split
      · exact (hcons _).symm
      · rfl

theorem mem_of_mem_upTo {a : α} {as : List α} (h : a ∈ upTo stop as) : a ∈ as := by
  induction as with
  | nil => exact h
  | cons b as ih =>
    rw [upTo] at h
    split at h
    · exact List.mem_singleton.1 h ▸ List.mem_cons_self
    · exact (List.mem_cons.1 h).elim (· ▸ List.mem_cons_self) fun h ↦ List.mem_cons_of_mem _ (ih h)

end

theorem mapM_id_cons_ok (a : α) (as : List (Except ε α)) :
    (.ok a :: as).mapM id = (as.mapM id).map (a :: ·) := by
  rw [List.mapM_cons]
  cases as.mapM id <;> rfl

theorem mapM_id_eq_ok {as : List (Except ε α)} {bs : List α} (h : as.mapM id = .ok bs) :
    as = bs.map .ok := by
  induction as generalizing bs with
  | nil =>
    cases h
    rfl
  | cons a as ih =>
    cases a with
    | error e => cases h
    | ok a =>
      rw [mapM_id_cons_ok] at h
      cases has : as.mapM id with
      | error e =>
        rw [has] at h
        cases h
      | ok bs' =>
        rw [has] at h
        cases h
        exact congrArg (.ok a :: ·) (ih has)

theorem mapM_id_map_ok (as : List α) : (as.map (Except.ok : α → Except ε α)).mapM id = .ok as := by
  induction as with
  | nil => rfl
  | cons a as ih =>
    rw [List.map_cons, mapM_id_cons_ok, ih]
    rfl

theorem mapM_id_map {β : Type} (f : α → β) (as : List (Except ε α)) :
    (as.map (Except.map f)).mapM id = (as.mapM id).map (List.map f) := by
  induction as with
  | nil => rfl
  | cons a as ih =>
    cases a with
    | error e => rfl
    | ok a =>
      rw [List.map_cons, Except.map, mapM_id_cons_ok, mapM_id_cons_ok, ih]
      cases as.mapM id <;> rfl

theorem exists_of_map_eq_ok {β : Type} {f : α → β} {as : List (Except ε α)} {bs : List β}
    (h : as.map (Except.map f) = bs.map .ok) : ∃ oks : List α, as = oks.map .ok ∧ oks.map f = bs := by
  induction as generalizing bs with
  | nil => exact ⟨[], rfl, (List.map_eq_nil_iff.1 h.symm).symm⟩
  | cons a as ih =>
    cases bs with
    | nil => cases h
    | cons b bs =>
      obtain ⟨hhead, htail⟩ := List.cons.inj h
      obtain ⟨oks, rfl, rfl⟩ := ih htail
      cases a with
      | error e => cases hhead
      | ok a =>
        cases hhead
        exact ⟨a :: oks, rfl, rfl⟩

theorem Step.outcomes_group (column : String) (steps : List (Step Empty)) (row : Row) (scope : Scope) :
    (Step.group column steps).outcomes row scope =
      match (reference ∅ scope steps).mapM id with
      | .ok rows => [.ok (row.insert column (.array (rows.map Record.toValue)), scope)]
      | .error e => [.error e] := by
  rw [Step.outcomes, reference, mapM_id_map]
  cases (RowProduct.outcomes steps ∅ scope).mapM id with
  | error e => rfl
  | ok nested =>
    simp only [Except.map, List.map_map]
    rfl

section

variable {row row' : Row} {scope scope' : Scope}

theorem ok_mem_column {c : Column} (h : .ok (row', scope') ∈ c.outcomes row scope) :
    ∃ v, row' = row.insert c.name v ∧ scope' = scope.insert c.name v := by
  rw [Column.outcomes] at h
  split at h
  · obtain ⟨v, -, hv⟩ := List.mem_map.1 h
    cases hv
    exact ⟨v, rfl, rfl⟩
  · cases List.mem_singleton.1 h

theorem ok_mem_mergeOutcomes {test : Option EntryTest} {entries : List Value}
    (h : .ok (row', scope') ∈ mergeOutcomes test row scope entries) :
    ∃ entry, .object entry ∈ entries ∧ (test.all fun test ↦ (test scope entry).value) ∧
      row' = row.overlay entry ∧ scope' = scope.overlay entry := by
  obtain ⟨⟨v, index⟩, hv, h⟩ := List.mem_flatMap.1 h
  cases v with
  | object entry =>
    rw [entryOutcomes] at h
    split at h
    · next htest =>
      cases List.mem_singleton.1 h
      exact ⟨entry, List.fst_mem_of_mem_zipIdx hv, htest, rfl, rfl⟩
    · cases h
  | _ => cases List.mem_singleton.1 h

theorem ok_mem_filter {test : Row → Traced Bool} (h : .ok (row', scope') ∈ (Step.filter test).outcomes row scope) :
    (test row).value ∧ row' = row ∧ scope' = scope := by
  rw [Step.outcomes] at h
  split at h
  · next htest =>
    cases List.mem_singleton.1 h
    exact ⟨htest, rfl, rfl⟩
  · cases h

theorem ok_mem_group {column : String} {steps : List (Step Empty)}
    (h : .ok (row', scope') ∈ (Step.group column steps).outcomes row scope) :
    ∃ rows : List Row, (reference ∅ scope steps).mapM id = .ok rows ∧
      row' = row.insert column (.array (rows.map Record.toValue)) ∧ scope' = scope := by
  rw [Step.outcomes_group] at h
  split at h
  · next rows hrows =>
    cases List.mem_singleton.1 h
    exact ⟨rows, hrows, rfl, rfl⟩
  · cases List.mem_singleton.1 h

end

theorem ok_mem_andThen {as : List Outcome} {f : Row → Scope → List Outcome} {b : Row × Scope}
    (h : .ok b ∈ andThen as f) : ∃ row scope, .ok (row, scope) ∈ as ∧ .ok b ∈ f row scope := by
  obtain ⟨a, ha, hb⟩ := List.mem_flatMap.1 h
  cases a with
  | error e => cases List.mem_singleton.1 hb
  | ok a => exact ⟨a.1, a.2, ha, hb⟩

end RowProduct
