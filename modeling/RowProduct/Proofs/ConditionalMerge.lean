import RowProduct.Proofs.Matching

namespace RowProduct

open Traversal

inductive Pairing where
  | failed (e : Error)
  | entry (row : Row) (scope : Scope) (index : Nat) (v : Value)

namespace Pairing

def item : Pairing → Item
  | .failed e => .error e
  | .entry row _ _ (.object top) => .ok (row.overlay top)
  | .entry _ _ index v => .error (.ofEntry index v)

def passes (test : EntryTest) : Pairing → Bool
  | .entry _ scope _ (.object top) => (test scope top).value
  | _ => true

def ofOutcome (entries : List Value) : Outcome → List Pairing
  | .ok (row, scope) => entries.zipIdx.map fun entry ↦ .entry row scope entry.2 entry.1
  | .error e => [.failed e]

end Pairing

/-- The pairs of the branches behind some steps and the entries of the data, up to the first that fails. -/
def pairings (xs : List (Step Empty)) (entries : List Value) (row : Row) (scope : Scope) : List Pairing :=
  upTo (fun p ↦ isError p.item) ((outcomes xs row scope).flatMap (Pairing.ofOutcome entries))

namespace Pairing

theorem passes_of_isError (test : EntryTest) (p : Pairing) (h : isError p.item) : p.passes test := by
  cases p with
  | failed e => rfl
  | entry row scope index v =>
    cases v with
    | object top => cases h
    | _ => rfl

theorem map_entryOutcomes (test : Option EntryTest) (row : Row) (scope : Scope) (entry : Value × Nat) :
    (entryOutcomes test row scope entry).map (Except.map Prod.fst) =
      ([Pairing.entry row scope entry.2 entry.1].filter fun p ↦ test.all p.passes).map item := by
  obtain ⟨v, index⟩ := entry
  cases v with
  | object top =>
    rw [entryOutcomes]
    cases test with
    | none => rfl
    | some test =>
      cases htest : (test scope top).value <;> simp [passes, htest, Except.map, item]
  | _ => cases test <;> rfl

theorem continued_merge (test : Option EntryTest) (entries : List Value) (x : Outcome) :
    continued [.merge entries test] x = ((ofOutcome entries x).filter fun p ↦ test.all p.passes).map item := by
  cases x with
  | error e => cases test <;> rfl
  | ok b =>
    have hmerge : reference b.1 b.2 [.merge entries test] =
        (mergeOutcomes test b.1 b.2 entries).map (Except.map Prod.fst) := by
      rw [reference, outcomes_singleton, Step.outcomes]
    have hpairs : ofOutcome entries (.ok b) =
        entries.zipIdx.flatMap fun entry ↦ [Pairing.entry b.1 b.2 entry.2 entry.1] := List.map_eq_flatMap
    rw [continued, hmerge, mergeOutcomes, List.map_flatMap, hpairs, List.filter_flatMap, List.map_flatMap]
    exact congrArg entries.zipIdx.flatMap (funext fun entry ↦ map_entryOutcomes test b.1 b.2 entry)

end Pairing

theorem given_merge (test : Option EntryTest) (xs : List (Step Empty)) (entries : List Value) (row : Row)
    (scope : Scope) (n : Nat) : (enumerate row scope (xs ++ [.merge entries test])).given n =
      (((pairings xs entries row scope).filter fun p ↦ test.all p.passes).map Pairing.item)[n]? := by
  have hkept (p : Pairing) (h : isError p.item) : test.all p.passes := by
    cases test with
    | none => rfl
    | some test => exact p.passes_of_isError test h
  have hreference : reference row scope (xs ++ [.merge entries test]) =
      (((outcomes xs row scope).flatMap (Pairing.ofOutcome entries)).filter fun p ↦ test.all p.passes).map
        Pairing.item := by
    rw [reference_append, List.filter_flatMap, List.map_flatMap]
    exact congrArg (outcomes xs row scope).flatMap (funext fun x ↦ Pairing.continued_merge test entries x)
  rw [given_enumerate, items_trace, hreference, cut, pairings, filter_upTo hkept, upTo_map fun p ↦ rfl]

/-- The items of a merge with a test are those of the merge of all entries, without the rows that come of a branch
and an entry for which the test fails. What is left is in the same order, with the same error of the same branch. -/
theorem enumerate_merge_selects (row : Row) (scope : Scope) (xs : List (Step Empty)) (entries : List Value) :
    (∀ n, (enumerate row scope (xs ++ [.forEach entries])).given n =
      ((pairings xs entries row scope).map Pairing.item)[n]?) ∧
    (∀ test n, (enumerate row scope (xs ++ [.merge entries (some test)])).given n =
      (((pairings xs entries row scope).filter (·.passes test)).map Pairing.item)[n]?) ∧
    ∀ name, (∀ n, (enumerate row scope (xs ++ [.join entries name])).given n =
        (((pairings xs entries row scope).filter (·.passes (Step.sharesColumn name))).map Pairing.item)[n]?) ∧
      ∀ scope entry, (Step.sharesColumn name scope entry).value ↔
        ∃ v w, scope.get? name = some v ∧ entry.lookup name = some w ∧ v.agrees w := by
  refine ⟨fun n ↦ ?_, fun test n ↦ given_merge (some test) xs entries row scope n,
    fun name ↦ ⟨fun n ↦ given_merge (some (Step.sharesColumn name)) xs entries row scope n,
      fun scope entry ↦ sharesColumn_iff⟩⟩
  have hall : (pairings xs entries row scope).filter (fun p ↦ (none : Option EntryTest).all p.passes) =
      pairings xs entries row scope := List.filter_eq_self.2 fun _ _ ↦ rfl
  have hnone := given_merge none xs entries row scope n
  rwa [hall] at hnone

end RowProduct
