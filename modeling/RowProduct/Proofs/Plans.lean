import Mathlib.Logic.Function.Iterate
import RowProduct.Plan

namespace RowProduct.Plan

variable {Ω : Type} {p : Plan Ω} {steps : List (Step Ω)}

/-- A plan and the list that the same operations make. -/
inductive Mirrors : Plan Ω → List (Step Ω) → Prop
  | empty : Mirrors empty []
  | ofList (steps : List (Step Ω)) : Mirrors (ofList steps) steps
  | tail {p : Plan Ω} {steps : List (Step Ω)} : Mirrors p steps → Mirrors p.tail steps.tail
  | prepend {p : Plan Ω} {steps : List (Step Ω)} (head : List (Step Ω)) :
      Mirrors p steps → Mirrors (p.prepend head) (head ++ steps)

structure Shows (p : Plan Ω) (steps : List (Step Ω)) : Prop where
  start_le : p.start ≤ p.items.size
  start_add_size : p.start + p.size = p.items.size
  storage : ∃ taken : List (Step Ω), taken.length = p.start ∧ p.items.toList = taken ++ p.toList
  toList_eq : p.toList = steps
  size_eq : p.size = p.toList.length
  isEmpty_iff : p.isEmpty ↔ p.toList = []
  first?_eq : p.first? = p.toList.head?
  tail_eq : p.tail.toList = p.toList.tail
  tails_eq (n : Nat) : (tail^[n] p).toList = p.toList.drop n
  prepend_eq (head : List (Step Ω)) : (p.prepend head).toList = head ++ p.toList

theorem toList_iterate_tail (p : Plan Ω) (n : Nat) : (tail^[n] p).toList = p.toList.drop n := by
  induction n with
  | zero => rfl
  | succ n ih => rw [Function.iterate_succ_apply', toList_tail, ih, List.tail_drop]

theorem iterate_tail (h : p.start ≤ p.items.size) (n : Nat) :
    tail^[n] p = ⟨p.items, min (p.start + n) p.items.size⟩ := by
  induction n with
  | zero => rw [Nat.add_zero, Nat.min_eq_left h]; rfl
  | succ n ih =>
    rw [Function.iterate_succ_apply', ih, tail, Plan.mk.injEq]
    exact ⟨rfl, by dsimp only; omega⟩

namespace Mirrors

theorem start_le (h : p.Mirrors steps) : p.start ≤ p.items.size := by
  cases h with
  | empty => exact Nat.zero_le _
  | ofList => exact Nat.zero_le _
  | tail => exact Nat.min_le_right _ _
  | prepend => exact Nat.zero_le _

theorem toList_eq (h : p.Mirrors steps) : p.toList = steps := by
  induction h with
  | empty => rfl
  | ofList steps => exact toList_ofList steps
  | tail _ ih => rw [toList_tail, ih]
  | prepend head _ ih => rw [toList_prepend, ih]

theorem iterate_tail (h : p.Mirrors steps) (n : Nat) : (Plan.tail^[n] p).Mirrors (steps.drop n) := by
  induction n with
  | zero => exact h
  | succ n ih =>
    rw [Function.iterate_succ_apply', ← List.tail_drop]
    exact ih.tail

theorem iff_toList_eq : p.Mirrors steps ↔ p.start ≤ p.items.size ∧ p.toList = steps := by
  refine ⟨fun h ↦ ⟨h.start_le, h.toList_eq⟩, fun ⟨hstart, hlist⟩ ↦ ?_⟩
  -- The tails of the whole storage come by every place in it.
  have hp : Plan.tail^[p.start] (Plan.ofList p.items.toList) = p := by
    rw [Plan.iterate_tail (Nat.zero_le _)]
    simp [Plan.ofList, Nat.min_eq_left hstart]
  have htails := (Mirrors.ofList p.items.toList).iterate_tail p.start
  rw [hp] at htails
  exact hlist ▸ htails

/-- Every plan starts within its storage and shows its list, as do those that come from it. A window that shows a
list comes from operations that make this list. -/
theorem iff_shows : p.Mirrors steps ↔ p.Shows steps where
  mp h :=
    { start_le := h.start_le
      start_add_size := Nat.add_sub_of_le h.start_le
      storage := by
        refine ⟨p.items.toList.take p.start, ?_, (List.take_append_drop _ _).symm⟩
        rw [List.length_take, Array.length_toList, Nat.min_eq_left h.start_le]
      toList_eq := h.toList_eq
      size_eq := p.size_eq_length
      isEmpty_iff := p.isEmpty_iff
      first?_eq := p.first?_eq_head?
      tail_eq := p.toList_tail
      tails_eq := p.toList_iterate_tail
      prepend_eq head := p.toList_prepend head }
  mpr h := iff_toList_eq.2 ⟨h.start_le, h.toList_eq⟩

theorem shows_behind_tail :
    let p : Plan Empty := ((Plan.ofList [.dataset [], .select ["a"]]).tail.prepend [.discard ["b"], .select []]).tail
    (p.Mirrors [.select [], .select ["a"]] ∧ p.start = 1 ∧ p.items.size = 3) ∧
      p.Shows [.select [], .select ["a"]] := by
  intro p
  have hp : p.Mirrors [.select [], .select ["a"]] := ((Mirrors.ofList _).tail.prepend _).tail
  exact ⟨⟨hp, rfl, rfl⟩, iff_shows.1 hp⟩

end Mirrors

end RowProduct.Plan
