import Mathlib.Data.List.Forall2
import RowProduct.Proofs.Checkpoint

namespace RowProduct

section

variable {α β : Type}

def combinations : List (List α) → Nat
  | [] => 1
  | factor :: factors => factor.length * combinations factors

/-- The places of the elements in the combination with this number. -/
def digits (factors : List (List α)) (i : Nat) : List Nat :=
  factors.mapIdx fun j factor ↦ i / combinations (factors.drop (j + 1)) % factor.length

def choices : List (List α) → List (List α)
  | [] => [[]]
  | factor :: factors => factor.flatMap fun a ↦ (choices factors).map (a :: ·)

theorem combinations_cons (factor : List α) (factors : List (List α)) :
    combinations (factor :: factors) = factor.length * combinations factors := rfl

theorem length_choices (factors : List (List α)) : (choices factors).length = combinations factors := by
  induction factors with
  | nil => rfl
  | cons factor factors ih =>
    rw [choices, List.length_flatMap, combinations_cons]
    simp only [List.length_map, ih, List.map_const', List.sum_replicate_nat]

theorem choices_append (factors others : List (List α)) :
    choices (factors ++ others) = (choices factors).flatMap fun as ↦ (choices others).map (as ++ ·) := by
  induction factors with
  | nil => simp [choices]
  | cons factor factors ih =>
    simp only [List.cons_append, choices, ih, List.map_flatMap, List.flatMap_assoc, List.flatMap_map,
      List.map_map]
    rfl

theorem getElem?_flatMap {f : α → List β} {n : Nat} (hn : 0 < n) (hf : ∀ a, (f a).length = n) (as : List α)
    (i : Nat) : (as.flatMap f)[i]? = as[i / n]?.bind fun a ↦ (f a)[i % n]? := by
  induction as generalizing i with
  | nil => rfl
  | cons a as ih =>
    rw [List.flatMap_cons]
    by_cases h : i < n
    · rw [List.getElem?_append_left (by rw [hf]; exact h), Nat.div_eq_of_lt h, Nat.mod_eq_of_lt h]
      rfl
    · obtain ⟨k, rfl⟩ := Nat.exists_eq_add_of_le (Nat.le_of_not_lt h)
      have hk : n + k - n = k := by omega
      rw [List.getElem?_append_right (by rw [hf]; omega), hf, hk, ih, Nat.add_div_left k hn,
        Nat.add_mod_left]
      rfl

theorem combinations_drop_dvd (factors : List (List α)) (j : Nat) :
    combinations (factors.drop j) ∣ combinations factors := by
  induction factors generalizing j with
  | nil =>
    have hdrop : ([] : List (List α)).drop j = [] := List.drop_nil
    exact ⟨1, by rw [hdrop, Nat.mul_one]⟩
  | cons factor factors ih =>
    cases j with
    | zero => exact Nat.dvd_refl _
    | succ j =>
      rw [combinations_cons]
      exact Nat.dvd_mul_left_of_dvd (ih j) _

theorem digits_cons (factor : List α) (factors : List (List α)) {i : Nat}
    (h : i < factor.length * combinations factors) :
    digits (factor :: factors) i = i / combinations factors :: digits factors (i % combinations factors) := by
  have hfirst : i / combinations factors < factor.length :=
    Nat.div_lt_of_lt_mul (by rwa [Nat.mul_comm])
  rw [digits, List.mapIdx_cons, List.drop_succ_cons, List.drop_zero, Nat.mod_eq_of_lt hfirst]
  refine congrArg (_ :: ·) (List.ext_getElem? fun j ↦ ?_)
  rw [digits, List.getElem?_mapIdx, List.getElem?_mapIdx]
  cases hj : factors[j]? with
  | none => rfl
  | some other =>
    have hdrop : factors.drop j = other :: factors.drop (j + 1) := by
      obtain ⟨hlt, rfl⟩ := List.getElem?_eq_some_iff.1 hj
      exact List.drop_eq_getElem_cons hlt
    -- The first digit counts multiples of this, so a later digit does not see it.
    have hdvd : combinations (factors.drop (j + 1)) * other.length ∣ combinations factors := by
      have h := combinations_drop_dvd factors j
      rwa [hdrop, combinations_cons, Nat.mul_comm] at h
    rw [Option.map_some, Option.map_some, List.drop_succ_cons, ← Nat.mod_mul_right_div_self,
      ← Nat.mod_mul_right_div_self (i % _), Nat.mod_mod_of_dvd _ hdvd]

theorem exists_choice {factors : List (List α)} {i : Nat} (h : i < combinations factors) :
    ∃ as : List α, (choices factors)[i]? = some as ∧
      as.map some = List.zipWith (fun factor d ↦ factor[d]?) factors (digits factors i) := by
  induction factors generalizing i with
  | nil =>
    obtain rfl : i = 0 := Nat.lt_one_iff.1 h
    exact ⟨[], rfl, rfl⟩
  | cons factor factors ih =>
    rw [combinations_cons] at h
    have hpos : 0 < combinations factors := Nat.pos_of_lt_mul_left h
    have hfirst : i / combinations factors < factor.length :=
      Nat.div_lt_of_lt_mul (by rwa [Nat.mul_comm])
    obtain ⟨as, has, hdigits⟩ := ih (Nat.mod_lt i hpos)
    have hlength (a : α) : ((choices factors).map (a :: ·)).length = combinations factors := by
      rw [List.length_map, length_choices]
    refine ⟨factor[i / combinations factors] :: as, ?_, ?_⟩
    · rw [choices, getElem?_flatMap hpos hlength, List.getElem?_eq_getElem hfirst, Option.bind_some,
        List.getElem?_map, has]
      rfl
    · rw [digits_cons factor factors h, List.zipWith_cons_cons, List.getElem?_eq_getElem hfirst, ← hdigits]
      rfl

theorem existsUnique_digits {ds : List Nat} {factors : List (List α)}
    (h : List.Forall₂ (fun d factor ↦ d < factor.length) ds factors) :
    ∃! i, i < combinations factors ∧ digits factors i = ds := by
  induction h with
  | nil => exact ⟨0, ⟨Nat.one_pos, rfl⟩, fun i hi ↦ Nat.lt_one_iff.1 hi.1⟩
  | @cons d factor ds factors hd _ ih =>
    obtain ⟨i, ⟨hi, hds⟩, hunique⟩ := ih
    have hpos : 0 < combinations factors := Nat.zero_lt_of_lt hi
    have hdiv : (combinations factors * d + i) / combinations factors = d := by
      rw [Nat.mul_add_div hpos, Nat.div_eq_of_lt hi, Nat.add_zero]
    have hmod : (combinations factors * d + i) % combinations factors = i := by
      rw [Nat.mul_add_mod, Nat.mod_eq_of_lt hi]
    have hlt : combinations factors * d + i < factor.length * combinations factors :=
      calc combinations factors * d + i
          < combinations factors * d + combinations factors := Nat.add_lt_add_left hi _
        _ = combinations factors * (d + 1) := (Nat.mul_succ _ _).symm
        _ ≤ combinations factors * factor.length := Nat.mul_le_mul_left _ hd
        _ = factor.length * combinations factors := Nat.mul_comm ..
    simp only [combinations_cons]
    refine ⟨combinations factors * d + i, ⟨hlt, ?_⟩, fun k hk ↦ ?_⟩
    · rw [digits_cons factor factors hlt, hdiv, hmod, hds]
    · obtain ⟨hk, hdigits⟩ := hk
      rw [digits_cons factor factors hk] at hdigits
      obtain ⟨hfirst, hrest⟩ := List.cons.inj hdigits
      rw [← hunique _ ⟨Nat.mod_lt k hpos, hrest⟩, ← hfirst, Nat.div_add_mod]

end

abbrev Factor := List Fields

def Factor.ofColumn (name : String) (data : Value) : Factor := data.items.map fun v ↦ [(name, v)]

/-- The factors of a step: a literal column is one, a block of such columns has one for each of them, and a
dataset of objects is one. -/
inductive Step.Multiplies : Step Empty → List Factor → Prop
  | column (name : String) (data : Value) :
      Multiplies (.column ⟨name, .ofValue data⟩) [.ofColumn name data]
  | columns {fields : Fields} :
      fields ≠ [] → Multiplies (.columns (.ofFields fields)) (fields.map fun field ↦ .ofColumn field.1 field.2)
  | dataset (entries : Factor) : Multiplies (.dataset (entries.map .object)) [entries]
  | forEach (entries : Factor) : Multiplies (.forEach (entries.map .object)) [entries]

inductive Multiplies : List (Step Empty) → List Factor → Prop
  | nil : Multiplies [] []
  | cons {step : Step Empty} {rest : List (Step Empty)} {factors others : List Factor} :
      step.Multiplies factors → Multiplies rest others → Multiplies (step :: rest) (factors ++ others)

def multiplied (factors : List Factor) (row : Row) (scope : Scope) : List Outcome :=
  (choices factors).map fun entries ↦
    .ok (entries.foldl Record.overlay row, entries.foldl Record.overlay scope)

theorem multiplied_append (factors others : List Factor) (row : Row) (scope : Scope) :
    multiplied (factors ++ others) row scope =
      andThen (multiplied factors row scope) (multiplied others) := by
  rw [multiplied, choices_append, List.map_flatMap, andThen, multiplied, List.flatMap_map]
  refine congrArg (choices factors).flatMap (funext fun entries ↦ ?_)
  simp only [multiplied, List.map_map, Function.comp_def, List.foldl_append]

theorem multiplied_singleton (factor : Factor) (row : Row) (scope : Scope) :
    multiplied [factor] row scope = factor.map fun entry ↦ .ok (row.overlay entry, scope.overlay entry) := by
  have hchoices : choices [factor] = factor.map ([·]) := List.map_eq_flatMap.symm
  rw [multiplied, hchoices, List.map_map]
  rfl

theorem Column.outcomes_ofValue (name : String) (data : Value) (row : Row) (scope : Scope) :
    (⟨name, .ofValue data⟩ : Column).outcomes row scope = multiplied [.ofColumn name data] row scope := by
  rw [multiplied_singleton, Factor.ofColumn, List.map_map]
  rfl

theorem ColumnBlock.outcomes_ofFields (fields : Fields) (row : Row) (scope : Scope) :
    ColumnBlock.outcomes (.ofFields fields) row scope =
      multiplied (fields.map fun field ↦ .ofColumn field.1 field.2) row scope := by
  induction fields generalizing row scope with
  | nil => rfl
  | cons field fields ih =>
    have hrest : ColumnBlock.outcomes (.ofFields fields) =
        multiplied (fields.map fun field ↦ .ofColumn field.1 field.2) :=
      funext fun row ↦ funext fun scope ↦ ih row scope
    calc ColumnBlock.outcomes (.ofFields (field :: fields)) row scope
        = andThen (Column.outcomes ⟨field.1, .ofValue field.2⟩ row scope)
            (ColumnBlock.outcomes (.ofFields fields)) := rfl
      _ = andThen (multiplied [.ofColumn field.1 field.2] row scope)
            (multiplied (fields.map fun field ↦ .ofColumn field.1 field.2)) := by
          rw [Column.outcomes_ofValue, hrest]
      _ = multiplied ((field :: fields).map fun field ↦ .ofColumn field.1 field.2) row scope :=
          (multiplied_append [.ofColumn field.1 field.2] _ row scope).symm

theorem mergeOutcomes_objects (entries : Factor) (row : Row) (scope : Scope) :
    mergeOutcomes none row scope (entries.map .object) = multiplied [entries] row scope := by
  rw [multiplied_singleton, mergeOutcomes, List.zipIdx_map, List.flatMap_map]
  calc entries.zipIdx.flatMap (fun entry ↦ entryOutcomes none row scope (.object entry.1, entry.2))
      = entries.zipIdx.flatMap fun entry ↦ [.ok (row.overlay entry.1, scope.overlay entry.1)] := rfl
    _ = (entries.zipIdx.map Prod.fst).map fun entry ↦ .ok (row.overlay entry, scope.overlay entry) := by
        rw [← List.map_eq_flatMap, List.map_map]
        rfl
    _ = entries.map fun entry ↦ .ok (row.overlay entry, scope.overlay entry) := by rw [List.zipIdx_map_fst]

theorem Step.Multiplies.outcomes_eq {step : Step Empty} {factors : List Factor} (h : step.Multiplies factors)
    (row : Row) (scope : Scope) : step.outcomes row scope = multiplied factors row scope := by
  cases h with
  | column name data => exact Column.outcomes_ofValue name data row scope
  | @columns fields hfields =>
    cases fields with
    | nil => exact absurd rfl hfields
    | cons field fields => exact ColumnBlock.outcomes_ofFields (field :: fields) row scope
  | dataset entries | forEach entries => exact mergeOutcomes_objects entries row scope

theorem Multiplies.outcomes_eq {steps : List (Step Empty)} {factors : List Factor} (h : Multiplies steps factors)
    (row : Row) (scope : Scope) : outcomes steps row scope = multiplied factors row scope := by
  induction h generalizing row scope with
  | nil => rfl
  | @cons step rest factors others hstep _ ih =>
    have hrest : outcomes rest = multiplied others := funext fun row ↦ funext fun scope ↦ ih row scope
    rw [outcomes, hstep.outcomes_eq, hrest, multiplied_append]

theorem Multiplies.product_value {steps : List (Step Empty)} (hsteps : steps ≠ []) {factors : List Factor}
    (h : Multiplies steps factors) :
    (product steps).value = .ok ((choices factors).map (List.foldl Record.overlay ∅)) := by
  cases steps with
  | nil => exact absurd rfl hsteps
  | cons step rest =>
    have hreference : reference ∅ ∅ (step :: rest) =
        ((choices factors).map (List.foldl Record.overlay ∅)).map .ok := by
      rw [reference, h.outcomes_eq, multiplied, List.map_map, List.map_map]
      rfl
    rw [RowProduct.product_value, hreference, mapM_id_map_ok]

theorem foldl_overlay (row : Row) (entries : List Fields) :
    entries.foldl Record.overlay row = row.overlay entries.flatten := by
  induction entries generalizing row with
  | nil => rfl
  | cons entry entries ih =>
    refine (ih (row.overlay entry)).trans (Record.ext ?_)
    rw [Record.fields_overlay, Record.fields_overlay, Record.fields_overlay, List.flatten_cons, Fields.overlay,
      Fields.overlay, Fields.overlay, List.foldl_append]

theorem names_foldl_overlay (entries : List Fields) :
    (entries.foldl Record.overlay (∅ : Row)).names = (Fields.names entries.flatten).eraseDups := by
  have hnil : (Fields.names entries.flatten).removeAll [] = Fields.names entries.flatten := by
    simp [List.removeAll]
  rw [foldl_overlay, Record.names, Record.fields_overlay, Fields.names_overlay]
  exact congrArg List.eraseDups hnil

theorem get?_foldl_overlay (entries : List Fields) (name : String) :
    (entries.foldl Record.overlay (∅ : Row)).get? name = entries.flatten.reverse.lookup name := by
  rw [foldl_overlay, Record.get?_overlay]
  exact Option.or_none

/-- A product of literal columns and datasets has a row for every combination of their entries, the entries in
the order of the steps and the last of them varying fastest. -/
theorem product_combinations {steps : List (Step Empty)} (hsteps : steps ≠ []) {factors : List Factor}
    (h : Multiplies steps factors) :
    ∃ rows : List Row, (product steps).value = .ok rows ∧ rows.length = combinations factors ∧
      (∀ i < combinations factors, ∃ entries : List Fields,
        entries.map some = List.zipWith (fun factor d ↦ factor[d]?) factors (digits factors i) ∧
        rows[i]? = some (entries.foldl Record.overlay ∅) ∧
        -- A repeated name keeps its first place and takes its last value.
        (entries.foldl Record.overlay (∅ : Row)).names = (Fields.names entries.flatten).eraseDups ∧
        ∀ name, (entries.foldl Record.overlay (∅ : Row)).get? name = entries.flatten.reverse.lookup name) ∧
      -- No combination is lost, and none comes twice.
      (∀ ds, List.Forall₂ (fun d factor ↦ d < factor.length) ds factors →
        ∃! i, i < combinations factors ∧ digits factors i = ds) ∧
      -- The same columns in other blocks give the same rows.
      ∀ steps', steps' ≠ [] → Multiplies steps' factors → (product steps').value = .ok rows := by
  refine ⟨_, h.product_value hsteps, ?_, fun i hi ↦ ?_, fun ds hds ↦ existsUnique_digits hds,
    fun steps' hsteps' h' ↦ h'.product_value hsteps'⟩
  · rw [List.length_map, length_choices]
  · obtain ⟨entries, hentries, hdigits⟩ := exists_choice hi
    refine ⟨entries, hdigits, ?_, names_foldl_overlay entries, get?_foldl_overlay entries⟩
    rw [List.getElem?_map, hentries]
    rfl

theorem product_rewritten_column :
    let entries : Factor := [[("c", .null)], [("a", .bool false), ("c", .null)], []]
    let steps : List (Step Empty) :=
      [.columns (.ofFields [("a", .array [.null, .bool true]), ("b", .string "x")]),
        .dataset (entries.map .object)]
    let apart : List (Step Empty) :=
      [.columns (.ofFields [("a", .array [.null, .bool true])]), .column ⟨"b", .ofValue (.string "x")⟩,
        .forEach (entries.map .object)]
    let factors : List Factor := [[[("a", .null)], [("a", .bool true)]], [[("b", .string "x")]], entries]
    (steps ≠ [] ∧ Multiplies steps factors) ∧
      ∃ rows : List Row, (product steps).value = .ok rows ∧ rows.length = 6 ∧
        (∃ chosen : List Fields,
          chosen.map some =
            [some [("a", .bool true)], some [("b", .string "x")], some [("a", .bool false), ("c", .null)]] ∧
          rows[4]? = some (chosen.foldl Record.overlay ∅) ∧
          (chosen.foldl Record.overlay (∅ : Row)).names = (Fields.names chosen.flatten).eraseDups ∧
          ∀ name, (chosen.foldl Record.overlay (∅ : Row)).get? name = chosen.flatten.reverse.lookup name) ∧
        (∃! i, i < 6 ∧ digits factors i = [1, 0, 1]) ∧
        (product apart).value = .ok rows := by
  intro entries steps apart factors
  have hsteps : steps ≠ [] := List.cons_ne_nil _ _
  have hfactors : Multiplies steps factors :=
    .cons (.columns (List.cons_ne_nil _ _)) (.cons (.dataset entries) .nil)
  have hapart : Multiplies apart factors :=
    .cons (.columns (List.cons_ne_nil _ _)) (.cons (.column "b" _) (.cons (.forEach entries) .nil))
  have hplaces : List.Forall₂ (fun d (factor : Factor) ↦ d < factor.length) [1, 0, 1] factors :=
    .cons (by decide) (.cons (by decide) (.cons (by decide) .nil))
  have hplace : digits factors 4 = [1, 0, 1] := by decide
  obtain ⟨rows, hvalue, hlength, hrows, hdigits, hother⟩ := product_combinations hsteps hfactors
  have hrow := hrows 4 (by decide)
  rw [hplace] at hrow
  exact ⟨⟨hsteps, hfactors⟩, rows, hvalue, hlength, hrow, hdigits _ hplaces,
    hother apart (List.cons_ne_nil _ _) hapart⟩

end RowProduct
