import RowProduct.Proofs.Parallel

namespace RowProduct

open Traversal Feed

variable {Ω : Type}

inductive Projection where
  | select (names : List String)
  | discard (names : List String)

namespace Projection

def step : Projection → Step Ω
  | .select names => .select names
  | .discard names => .discard names

def names : Projection → List String
  | .select names | .discard names => names

def selected? : Projection → Option (List String)
  | .select names => some names
  | .discard _ => none

def admits : Projection → String → Bool
  | .select names, name => names.contains name
  | .discard names, name => !names.contains name

/-- One projection for a chain of them. The last selection says which names are kept and in what order, as far as
all others admit them; where nothing is selected, all names of the chain are discarded. -/
def fused (chain : List Projection) : Projection :=
  match (chain.filterMap selected?).getLast? with
  | some names => .select (names.filter fun name ↦ chain.all (·.admits name))
  | none => .discard (chain.flatMap names)

/-- What the projection makes of a branch. A selection goes by the names that the row has, for the scope too. -/
def apply : Projection → Row × Scope → Row × Scope
  | .select names, (row, scope) =>
    let kept := names.filter row.contains
    (row.select kept, scope.select kept)
  | .discard names, (row, scope) => (row.discard names, scope.discard names)

theorem apply_select (names : List String) (b : Row × Scope) :
    (select names).apply b =
      (b.1.select (names.filter b.1.contains), b.2.select (names.filter b.1.contains)) := rfl

def applyRow : Projection → Row → Row
  | .select names, row => row.select names
  | .discard names, row => row.discard names

theorem apply_fst (p : Projection) (b : Row × Scope) : (p.apply b).1 = p.applyRow b.1 := by
  cases p with
  | select names => exact Record.select_filter_contains b.1 names
  | discard names => rfl

theorem contains_applyRow (p : Projection) (row : Row) (name : String) :
    (p.applyRow row).contains name = (p.admits name && row.contains name) := by
  cases p with
  | select names => exact row.contains_select names name
  | discard names => exact row.contains_discard names name

theorem get?_apply {p : Projection} {name : String} {b : Row × Scope} (h : (p.apply b).1.contains name) :
    (p.apply b).1.get? name = b.1.get? name ∧ (p.apply b).2.get? name = b.2.get? name := by
  rw [apply_fst, contains_applyRow, Bool.and_eq_true] at h
  obtain ⟨hadmits, hrow⟩ := h
  cases p with
  | select names =>
    have hname : name ∈ names.filter b.1.contains :=
      List.mem_filter.2 ⟨List.contains_iff_mem.1 hadmits, hrow⟩
    simp only [apply, Record.get?_select, if_pos hname, and_self]
  | discard names =>
    have hname : name ∉ names := by simpa [admits] using hadmits
    simp only [apply, Record.get?_discard, if_neg hname, and_self]

theorem select_apply (p : Projection) (names : List String) (b : Row × Scope) :
    (select names).apply (p.apply b) = (select (names.filter p.admits)).apply b := by
  have hkept : names.filter (p.apply b).1.contains = (names.filter p.admits).filter b.1.contains := by
    rw [List.filter_filter]
    refine List.filter_congr fun name _ ↦ ?_
    rw [apply_fst, contains_applyRow, Bool.and_comm]
  have hget (name : String) (hname : name ∈ (names.filter p.admits).filter b.1.contains) :=
    @get?_apply p name b (List.mem_filter.1 (hkept ▸ hname)).2
  rw [apply_select, apply_select, hkept]
  refine Prod.ext ?_ ?_
  · exact Record.select_congr fun name hname ↦ (hget name hname).1
  · exact Record.select_congr fun name hname ↦ (hget name hname).2

theorem discard_apply_discard (names dropped : List String) (b : Row × Scope) :
    (discard dropped).apply ((discard names).apply b) = (discard (names ++ dropped)).apply b :=
  Prod.ext (Record.discard_append b.1 names dropped) (Record.discard_append b.2 names dropped)

theorem discard_apply_select (names dropped : List String) (b : Row × Scope) :
    (discard dropped).apply ((select names).apply b) =
      (select (names.filter fun name ↦ !dropped.contains name)).apply b := by
  have hkept : (names.filter fun name ↦ !dropped.contains name).filter b.1.contains =
      (names.filter b.1.contains).filter fun name ↦ !dropped.contains name := by
    rw [List.filter_filter, List.filter_filter]
    exact List.filter_congr fun name _ ↦ Bool.and_comm ..
  rw [apply_select, apply_select, hkept]
  exact Prod.ext (Record.discard_select_filter b.1 _ dropped) (Record.discard_select_filter b.2 _ dropped)

theorem all_admits {chain : List Projection} (h : chain.filterMap selected? = []) (name : String) :
    chain.all (·.admits name) = !(chain.flatMap names).contains name := by
  induction chain with
  | nil => rfl
  | cons p chain ih =>
    cases p with
    | select names => cases h
    | discard dropped =>
      rw [List.all_cons, ih h, List.flatMap_cons, List.contains_append, Bool.not_or]
      rfl

theorem fused_of_selected {chain : List Projection} {names : List String}
    (h : (chain.filterMap selected?).getLast? = some names) :
    fused chain = select (names.filter fun name ↦ chain.all (·.admits name)) := by
  rw [fused, h]

theorem fused_of_discards {chain : List Projection} (h : chain.filterMap selected? = []) :
    fused chain = discard (chain.flatMap names) := by
  rw [fused, h, List.getLast?_nil]

theorem fused_cons_apply (p : Projection) (chain : List Projection) (b : Row × Scope) :
    (fused (p :: chain)).apply b = (fused chain).apply (p.apply b) := by
  cases hlast : (chain.filterMap selected?).getLast? with
  | some names =>
    have hcons : ((p :: chain).filterMap selected?).getLast? = some names := by
      cases p with
      | select others =>
        rw [List.filterMap_cons, selected?, List.getLast?_cons, hlast, Option.getD_some]
      | discard dropped => exact hlast
    rw [fused_of_selected hcons, fused_of_selected hlast, select_apply, List.filter_filter]
    rfl
  | none =>
    have hnone := List.getLast?_eq_none_iff.1 hlast
    rw [fused_of_discards hnone]
    cases p with
    | select names =>
      have hcons : ((select names :: chain).filterMap selected?).getLast? = some names := by
        rw [List.filterMap_cons, selected?, hnone, List.getLast?_singleton]
      have hadmits : (names.filter fun name ↦ (select names :: chain).all (·.admits name)) =
          names.filter fun name ↦ !(chain.flatMap Projection.names).contains name := by
        refine List.filter_congr fun name hname ↦ ?_
        have hcontains : (select names).admits name := List.contains_iff_mem.2 hname
        rw [List.all_cons, hcontains, Bool.true_and, all_admits hnone]
      rw [fused_of_selected hcons, discard_apply_select, hadmits]
    | discard dropped =>
      have hcons : (discard dropped :: chain).filterMap selected? = [] := hnone
      rw [fused_of_discards hcons]
      exact (discard_apply_discard dropped (chain.flatMap names) b).symm

theorem fused_apply (chain : List Projection) (b : Row × Scope) :
    (fused chain).apply b = chain.foldl (fun b p ↦ p.apply b) b := by
  induction chain generalizing b with
  | nil => rfl
  | cons p chain ih => rw [fused_cons_apply, ih, List.foldl_cons]

theorem apply_idem (p : Projection) (b : Row × Scope) : p.apply (p.apply b) = p.apply b := by
  cases p with
  | select names =>
    have hself : names.filter (select names).admits = names :=
      List.filter_eq_self.2 fun name hname ↦ List.contains_iff_mem.2 hname
    rw [select_apply, hself]
  | discard names =>
    have hself (r : Record) : (r.discard names).discard names = r.discard names := by
      refine Record.discard_eq_self fun name hname ↦ ?_
      rw [Record.contains_discard, List.contains_iff_mem.2 hname]
      rfl
    exact Prod.ext (hself b.1) (hself b.2)

theorem discard_apply_comm (names dropped : List String) (b : Row × Scope) :
    (discard dropped).apply ((discard names).apply b) = (discard names).apply ((discard dropped).apply b) :=
  Prod.ext (Record.discard_discard b.1 names dropped) (Record.discard_discard b.2 names dropped)

theorem outcomes_step (p : Projection) (row : Row) (scope : Scope) :
    p.step.outcomes row scope = [.ok (p.apply (row, scope))] := by
  cases p <;> rfl

theorem outcomes_chain (chain : List Projection) (row : Row) (scope : Scope) :
    outcomes (chain.map step) row scope = [.ok ((fused chain).apply (row, scope))] := by
  induction chain generalizing row scope with
  | nil => rfl
  | cons p chain ih =>
    rw [List.map_cons, outcomes, outcomes_step, fused_cons_apply, ← ih]
    exact List.append_nil _

theorem given_step [Operators Ω] (p : Projection) (row : Row) (scope : Scope) (rest : List (Step Ω)) :
    (enumerate row scope (p.step :: rest)).given =
      (enumerate (p.apply (row, scope)).1 (p.apply (row, scope)).2 rest).given := by
  rw [given_enumerate_cons]
  cases p <;> rfl

theorem given_chain [Operators Ω] (chain : List Projection) (row : Row) (scope : Scope) (rest : List (Step Ω)) :
    (enumerate row scope (chain.map step ++ rest)).given =
      (enumerate ((fused chain).apply (row, scope)).1 ((fused chain).apply (row, scope)).2 rest).given := by
  induction chain generalizing row scope with
  | nil => rfl
  | cons p chain ih => rw [List.map_cons, List.cons_append, given_step, ih, fused_cons_apply]

end Projection

open Projection

/-- A chain of projections, the empty one included, is one projection: the steps behind it start from the same row
and the same scope and give the same items. -/
theorem enumerate_projection_chain [Operators Ω] (row : Row) (scope : Scope) (chain : List Projection) :
    (∀ rest : List (Step Ω), (enumerate row scope (chain.map step ++ rest)).given =
      (enumerate row scope ((fused chain).step :: rest)).given) ∧
    (∃ row' scope', outcomes (chain.map step) row scope = [.ok (row', scope')] ∧
      outcomes [(fused chain).step] row scope = [.ok (row', scope')] ∧
      ∀ rest : List (Step Ω), (enumerate row scope (chain.map step ++ rest)).given =
        (enumerate row' scope' rest).given) ∧
    -- A projection may be repeated, and discards may change their places.
    (∀ (p : Projection) (rest : List (Step Ω)), (enumerate row scope (p.step :: p.step :: rest)).given =
      (enumerate row scope (p.step :: rest)).given) ∧
    ∀ (names dropped : List String) (rest : List (Step Ω)),
      (enumerate row scope (.discard names :: .discard dropped :: rest)).given =
        (enumerate row scope (.discard dropped :: .discard names :: rest)).given := by
  refine ⟨fun rest ↦ ?_, ⟨_, _, outcomes_chain chain row scope, ?_, fun rest ↦ given_chain chain row scope rest⟩,
    fun p rest ↦ ?_, fun names dropped rest ↦ ?_⟩
  · rw [given_chain, given_step]
  · rw [outcomes_singleton]
    exact outcomes_step (fused chain) row scope
  · rw [given_step, given_step, apply_idem]
    exact (given_step p row scope rest).symm
  · have hboth (names dropped : List String) :
        (enumerate row scope (.discard names :: .discard dropped :: rest)).given =
          (let b := (Projection.discard dropped).apply ((Projection.discard names).apply (row, scope))
          (enumerate b.1 b.2 rest).given) :=
      (given_step (.discard names) row scope (.discard dropped :: rest)).trans
        (given_step (.discard dropped) _ _ rest)
    rw [hboth, hboth, discard_apply_comm]

namespace Projection

theorem continued_step (p : Projection) (x : Outcome) :
    continued [p.step] x = [(x.map Prod.fst).map p.applyRow] := by
  cases x with
  | error e => rfl
  | ok b =>
    rw [continued, reference, outcomes_singleton, outcomes_step]
    exact congrArg (fun row ↦ [(Except.ok row : Item)]) (apply_fst p b)

theorem given_behind (p : Projection) (xs : List (Step Empty)) (row : Row) (scope : Scope) (n : Nat) :
    (enumerate row scope (xs ++ [p.step])).given n =
      ((enumerate row scope xs).given n).map (Except.map p.applyRow) := by
  have hreference : reference row scope (xs ++ [p.step]) =
      (reference row scope xs).map (Except.map p.applyRow) := by
    rw [reference_append, funext p.continued_step, ← List.map_eq_flatMap, reference, List.map_map]
    rfl
  rw [given_map, ← hreference, given_enumerate, items_trace]

theorem given_select_behind {kept dropped : List String} (hdisjoint : ∀ name ∈ kept, name ∉ dropped)
    (xs : List (Step Empty)) (row : Row) (scope : Scope) :
    (enumerate row scope (xs ++ [.discard dropped, .select kept])).given =
      (enumerate row scope (xs ++ [.select kept])).given := by
  have hkept : kept.filter (discard dropped).admits = kept :=
    List.filter_eq_self.2 fun name hname ↦ by simpa [admits] using hdisjoint name hname
  have hchain (row : Row) (scope : Scope) :
      outcomes [.discard dropped, .select kept] row scope = outcomes [.select kept] row scope := by
    have hboth := outcomes_chain [.discard dropped, .select kept] row scope
    rw [fused_apply, List.foldl_cons, List.foldl_cons, List.foldl_nil, select_apply, hkept] at hboth
    exact hboth.trans (outcomes_singleton (.select kept) row scope).symm
  refine given_congr ?_
  rw [outcomes_append, outcomes_append, funext fun row ↦ funext fun scope ↦ hchain row scope]

end Projection

inductive Reordered : Item → Item → Prop
  | row {r r' : Row} : r.fields.Perm r'.fields → Reordered (.ok r) (.ok r')
  | error (e : Error) : Reordered (.error e) (.error e)

section

variable {r : Row} {kept dropped : List String} (hdisjoint : ∀ name ∈ kept, name ∉ dropped)
  (hcover : ∀ name ∈ r.names, name ∈ kept ∨ name ∈ dropped)
include hdisjoint hcover

theorem Record.get?_partition (name : String) : (r.select kept).get? name = (r.discard dropped).get? name := by
  rw [Record.get?_select, Record.get?_discard]
  by_cases hkept : name ∈ kept
  · rw [if_pos hkept, if_neg (hdisjoint name hkept)]
  · rw [if_neg hkept]
    split
    · rfl
    · next hdropped =>
      have hname : ¬ r.contains name := fun hname ↦
        (hcover name ((r.contains_iff name).1 hname)).elim hkept hdropped
      exact (Option.not_isSome_iff_eq_none.1 hname).symm

theorem Record.select_eq_discard_iff :
    r.select kept = r.discard dropped ↔ (kept.filter r.contains).eraseDups = r.names.filter kept.contains := by
  have hnames : (r.discard dropped).names = r.names.filter kept.contains := by
    rw [Record.names_discard]
    refine List.filter_congr fun name hname ↦ ?_
    by_cases hkept : name ∈ kept
    · simp [hkept, hdisjoint name hkept]
    · simp [hkept, (hcover name hname).resolve_left hkept]
  rw [← Record.names_select, ← hnames]
  exact ⟨fun h ↦ h ▸ rfl, fun h ↦ Record.eq_of_get? h (Record.get?_partition hdisjoint hcover)⟩

end

/-- Keeping some columns and dropping all others come to the same, but for the order of the columns: it is the same
order for a row whose kept columns are named in the order in which they stand. -/
theorem enumerate_partition {row : Row} {scope : Scope} {xs : List (Step Empty)} {kept dropped : List String}
    (hdisjoint : ∀ name ∈ kept, name ∉ dropped)
    (hcover : ∀ n r, (enumerate row scope xs).given n = some (.ok r) →
      ∀ name ∈ r.names, name ∈ kept ∨ name ∈ dropped) (n : Nat) :
    Option.Rel Reordered ((enumerate row scope (xs ++ [.select kept])).given n)
      ((enumerate row scope (xs ++ [.discard dropped])).given n) ∧
    (enumerate row scope (xs ++ [.discard dropped, .select kept])).given n =
      (enumerate row scope (xs ++ [.select kept])).given n ∧
    ∀ r, (enumerate row scope xs).given n = some (.ok r) →
      ((enumerate row scope (xs ++ [.select kept])).given n =
          (enumerate row scope (xs ++ [.discard dropped])).given n ↔
        -- Names that the row does not have, and repeated ones, do not count.
        (kept.filter r.contains).eraseDups = r.names.filter kept.contains) := by
  have hselect : (enumerate row scope (xs ++ [.select kept])).given n =
      ((enumerate row scope xs).given n).map (Except.map (·.select kept)) :=
    given_behind (.select kept) xs row scope n
  have hdiscard : (enumerate row scope (xs ++ [.discard dropped])).given n =
      ((enumerate row scope xs).given n).map (Except.map (·.discard dropped)) :=
    given_behind (.discard dropped) xs row scope n
  refine ⟨?_, congrFun (given_select_behind hdisjoint xs row scope) n, fun r hr ↦ ?_⟩
  · rw [hselect, hdiscard]
    cases hgiven : (enumerate row scope xs).given n with
    | none => exact .none
    | some x =>
      cases x with
      | error e => exact .some (.error e)
      | ok r => exact .some (.row (Record.perm_of_get? (Record.get?_partition hdisjoint (hcover n r hgiven))))
  · rw [hselect, hdiscard, hr, ← Record.select_eq_discard_iff hdisjoint (hcover n r hr)]
    simp [Except.map]

/-- A row in which a group has written, and an error behind it. The names that are kept stand in another order than
the columns, one of them twice and one for no column. -/
theorem given_partition_group :
    let row : Row := .ofList [("b", .null)]
    let scope : Scope := .ofList [("a", .bool true), ("d", .null)]
    let xs : List (Step Empty) :=
      [.group "g" [.column ⟨"c", .values [.null]⟩], .dataset [.object [("a", .null)], .null]]
    let kept := ["a", "z", "g", "a"]
    let dropped := ["b", "c"]
    let behind (ys : List (Step Empty)) : Feed := (enumerate row scope (xs ++ ys)).given
    ((∀ name ∈ kept, name ∉ dropped) ∧
      ∀ n r, (enumerate row scope xs).given n = some (.ok r) → ∀ name ∈ r.names, name ∈ kept ∨ name ∈ dropped) ∧
    ∀ n, Option.Rel Reordered (behind [.select kept] n) (behind [.discard dropped] n) ∧
      behind [.discard dropped, .select kept] n = behind [.select kept] n ∧
      ∀ r, (enumerate row scope xs).given n = some (.ok r) →
        (behind [.select kept] n = behind [.discard dropped] n ↔
          (kept.filter r.contains).eraseDups = r.names.filter kept.contains) := by
  intro row scope xs kept dropped behind
  have hdisjoint : ∀ name ∈ kept, name ∉ dropped := by decide
  have houtcomes : cut (outcomes xs row scope) =
      [.ok (.ofList [("b", .null), ("g", .array [.object [("c", .null)]]), ("a", .null)],
        .ofList [("a", .null), ("d", .null)]), .error (.ofEntry 1 .null)] := rfl
  have hcover (n : Nat) (r : Row) (h : (enumerate row scope xs).given n = some (.ok r)) :
      ∀ name ∈ r.names, name ∈ kept ∨ name ∈ dropped := by
    obtain ⟨s, hs⟩ := given_eq_ok_iff.1 h
    rw [houtcomes] at hs
    cases List.mem_of_getElem? hs with
    | head => decide
    | tail _ h => cases List.mem_singleton.1 h
  exact ⟨⟨hdisjoint, hcover⟩, enumerate_partition hdisjoint hcover⟩

end RowProduct
