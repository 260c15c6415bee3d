import RowProduct.Enumeration

namespace RowProduct

/-- What is left of shared steps from some place on, so that taking the tail copies nothing. -/
structure Plan (Ω : Type) where
  items : Array (Step Ω)
  start : Nat

namespace Plan

variable {Ω : Type}

def ofList (steps : List (Step Ω)) : Plan Ω := ⟨steps.toArray, 0⟩

def empty : Plan Ω := ofList []

def size (p : Plan Ω) : Nat := p.items.size - p.start

def isEmpty (p : Plan Ω) : Bool := p.size == 0

def first? (p : Plan Ω) : Option (Step Ω) := p.items[p.start]?

def tail (p : Plan Ω) : Plan Ω := { p with start := min (p.start + 1) p.items.size }

def toList (p : Plan Ω) : List (Step Ω) := p.items.toList.drop p.start

def prepend (steps : List (Step Ω)) (p : Plan Ω) : Plan Ω := ofList (steps ++ p.toList)

def enumerate [Operators Ω] (row : Row) (scope : Scope) (p : Plan Ω) : Traversal :=
  RowProduct.enumerate row scope p.toList

@[simp]
theorem toList_ofList (steps : List (Step Ω)) : (ofList steps).toList = steps := by
  simp [ofList, toList]

@[simp]
theorem toList_prepend (steps : List (Step Ω)) (p : Plan Ω) :
    (p.prepend steps).toList = steps ++ p.toList :=
  toList_ofList _

@[simp]
theorem toList_tail (p : Plan Ω) : p.tail.toList = p.toList.tail := by
  simp only [tail, toList, List.tail_drop]
  by_cases h : p.start + 1 ≤ p.items.size
  · rw [Nat.min_eq_left h]
  · rw [Nat.min_eq_right (by omega), List.drop_of_length_le (by simp),
      List.drop_of_length_le (by simp; omega)]

theorem size_eq_length (p : Plan Ω) : p.size = p.toList.length := by
  simp [size, toList]

theorem isEmpty_iff (p : Plan Ω) : p.isEmpty ↔ p.toList = [] := by
  rw [isEmpty, size_eq_length, beq_iff_eq, List.length_eq_zero_iff]

theorem first?_eq_head? (p : Plan Ω) : p.first? = p.toList.head? := by
  simp [first?, toList, List.head?_drop]

end Plan

end RowProduct
