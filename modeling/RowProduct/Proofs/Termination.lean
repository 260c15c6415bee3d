import Mathlib.Logic.Hydra
import RowProduct.Proofs.Demand
import RowProduct.Proofs.Machine

namespace RowProduct

open Traversal Relation

mutual

def Step.weight : Step Empty → Nat
  | .columns block => 2 * block.length + 1
  | .dataset _ => 3
  | .column _ | .merge _ _ => 2
  | .group _ steps => weightAll steps + 2
  | .unrecognized _ | .filter _ | .select _ | .discard _ | .operator _ => 1

def weightAll : List (Step Empty) → Nat
  | [] => 0
  | step :: rest => step.weight + weightAll rest

end

/-- One weight for every branch that the task is known to make, and one for the end of a list of branches. How many
branches a column makes is known only when its function has returned, so no number computed from the steps would
do. -/
def Task.weights : Task → Multiset Nat
  | .visit _ _ steps => {weightAll steps}
  | .values _ vs _ _ rest | .entries _ _ vs _ _ rest => .replicate (vs.length + 1) (weightAll rest + 1)

def OpenGroup.weights (g : OpenGroup) : Multiset Nat := {weightAll g.rest + 1} + (g.tasks.map Task.weights).sum

def Machine.weights (m : Machine) : Multiset Nat :=
  (m.tasks.map Task.weights).sum + (m.groups.map OpenGroup.weights).sum

def Move.next? : Move → Option Machine
  | .work _ next | .give _ next => some next
  | .halt _ _ => none

theorem weightAll_columns (block : ColumnBlock) (rest : List (Step Empty)) :
    weightAll (block.map .column ++ rest) = 2 * block.length + weightAll rest := by
  induction block with
  | nil => rw [List.map_nil, List.nil_append, List.length_nil, Nat.mul_zero, Nat.zero_add]
  | cons c block ih =>
    rw [List.map_cons, List.cons_append, weightAll, ih, Step.weight, List.length_cons]
    omega

theorem weights_cons (task : Task) (tasks : List Task) (groups : List OpenGroup) :
    Machine.weights ⟨task :: tasks, groups⟩ = task.weights + Machine.weights ⟨tasks, groups⟩ :=
  add_assoc ..

theorem weights_open (tasks : List Task) (g : OpenGroup) (groups : List OpenGroup) :
    Machine.weights ⟨tasks, g :: groups⟩ =
      (tasks.map Task.weights).sum + ({weightAll g.rest + 1} + Machine.weights ⟨g.tasks, groups⟩) := by
  simp only [Machine.weights, OpenGroup.weights, List.map_cons, List.sum_cons, add_assoc]

theorem Task.weights_values (name : String) (v : Value) (vs : List Value) (row : Row) (scope : Scope)
    (rest : List (Step Empty)) :
    (values name (v :: vs) row scope rest).weights =
      {weightAll rest + 1} + (values name vs row scope rest).weights :=
  Multiset.replicate_succ ..

theorem Task.weights_entries (test : Option EntryTest) (index : Nat) (v : Value) (vs : List Value) (row : Row)
    (scope : Scope) (rest : List (Step Empty)) :
    (entries test index (v :: vs) row scope rest).weights =
      {weightAll rest + 1} + (entries test (index + 1) vs row scope rest).weights :=
  Multiset.replicate_succ ..

theorem cutExpand_task {task : Task} {w : Nat} (h : ∀ v ∈ task.weights, v < w) (tasks : List Task)
    (groups : List OpenGroup) :
    CutExpand (· < ·) (Machine.weights ⟨task :: tasks, groups⟩) ({w} + Machine.weights ⟨tasks, groups⟩) := by
  rw [weights_cons, cutExpand_add_right]
  exact cutExpand_singleton h

theorem cutExpand_visit {steps : List (Step Empty)} {w : Nat} (h : weightAll steps < w) (row : Row) (scope : Scope)
    (tasks : List Task) (groups : List OpenGroup) :
    CutExpand (· < ·) (Machine.weights ⟨.visit row scope steps :: tasks, groups⟩)
      ({w} + Machine.weights ⟨tasks, groups⟩) :=
  cutExpand_task (fun v hv ↦ by rwa [Multiset.mem_singleton.1 hv]) tasks groups

theorem cutExpand_drop (w : Nat) (tasks : List Task) (groups : List OpenGroup) :
    CutExpand (· < ·) (Machine.weights ⟨tasks, groups⟩) ({w} + Machine.weights ⟨tasks, groups⟩) := by
  have h := (cutExpand_add_right (Machine.weights ⟨tasks, groups⟩)).2 (@cutExpand_zero Nat (· < ·) w)
  rwa [zero_add] at h

def Move.Descends (weights : Multiset Nat) : Move → Prop
  | .work _ next | .give _ next => CutExpand (· < ·) next.weights weights
  | .halt _ _ => True

theorem Step.move_descends (rest : List (Step Empty)) (row : Row) (scope : Scope) (tasks : List Task)
    (groups : List OpenGroup) (step : Step Empty) :
    (step.move rest row scope tasks groups).Descends
      ({step.weight + weightAll rest} + Machine.weights ⟨tasks, groups⟩) := by
  cases step with
  | columns block =>
    cases block with
    | nil => exact trivial
    | cons c block =>
      refine cutExpand_visit ?_ row scope tasks groups
      rw [weightAll_columns, Step.weight]
      omega
  | dataset entries =>
    refine cutExpand_visit ?_ row scope tasks groups
    rw [weightAll, Step.forEach, Step.weight, Step.weight]
    omega
  | unrecognized v => exact trivial
  | column c =>
    simp only [Step.move]
    cases (c.resolve scope).value with
    | ok vs =>
      refine cutExpand_task (fun v hv ↦ ?_) tasks groups
      rw [Multiset.eq_of_mem_replicate hv, Step.weight]
      omega
    | error e => exact trivial
  | merge entries test =>
    refine cutExpand_task (fun v hv ↦ ?_) tasks groups
    rw [Multiset.eq_of_mem_replicate hv, Step.weight]
    omega
  | filter test =>
    have hsmaller : weightAll rest < (filter test : Step Empty).weight + weightAll rest :=
      Nat.lt_add_of_pos_left one_pos
    simp only [Step.move]
    cases (test row).value with
    | true => exact cutExpand_visit hsmaller row scope tasks groups
    | false => exact cutExpand_drop _ tasks groups
  | group column steps =>
    -- the nested steps and what is behind the group both come from its one weight
    have hsmaller :
        ∀ v ∈ ({weightAll steps} + {weightAll rest + 1} : Multiset Nat), v < weightAll steps + 2 + weightAll rest := by
      intro v hv
      simp only [Multiset.mem_add, Multiset.mem_singleton] at hv
      omega
    rw [Step.move, Move.Descends, weights_open, List.map_singleton, List.sum_singleton, ← add_assoc]
    exact (cutExpand_add_right _).2 (cutExpand_singleton hsmaller)
  | select names | discard names => exact cutExpand_visit (Nat.lt_add_of_pos_left one_pos) _ _ tasks groups
  | operator op => exact op.elim

theorem Task.move_descends (tasks : List Task) (groups : List OpenGroup) (task : Task) :
    (task.move tasks groups).Descends (task.weights + Machine.weights ⟨tasks, groups⟩) := by
  cases task with
  | visit row scope steps =>
    cases steps with
    | nil =>
      cases groups with
      | nil => exact cutExpand_drop 0 tasks []
      | cons g groups => exact cutExpand_drop 0 tasks (g :: groups)
    | cons step rest => exact step.move_descends rest row scope tasks groups
  | values name vs row scope rest =>
    cases vs with
    | nil => exact cutExpand_drop _ tasks groups
    | cons v vs =>
      rw [weights_values, add_assoc, ← weights_cons]
      exact cutExpand_visit (Nat.lt_succ_self _) _ _ _ groups
  | entries test index vs row scope rest =>
    cases vs with
    | nil => exact cutExpand_drop _ tasks groups
    | cons v vs =>
      rw [weights_entries, add_assoc, ← weights_cons]
      cases v with
      | object top =>
        simp only [Task.move]
        cases (test.elim (return true : Traced Bool) fun test ↦ test scope top).value with
        | true => exact cutExpand_visit (Nat.lt_succ_self _) _ _ _ groups
        | false => exact cutExpand_drop _ _ groups
      | _ => exact trivial

namespace Machine

theorem move_descends (m : Machine) : m.move.Descends m.weights := by
  obtain ⟨tasks, groups⟩ := m
  cases tasks with
  | nil =>
    cases groups with
    | nil => exact trivial
    | cons g groups =>
      rw [weights_open, List.map_nil, List.sum_nil, zero_add]
      exact cutExpand_visit (Nat.lt_succ_self _) _ _ _ groups
  | cons task tasks =>
    rw [weights_cons]
    exact task.move_descends tasks groups

theorem weights_next {m next : Machine} (h : m.move.next? = some next) :
    CutExpand (· < ·) next.weights m.weights := by
  have hdescends := m.move_descends
  cases hmove : m.move with
  | work events later | give row later =>
    rw [hmove] at h hdescends
    cases h
    exact hdescends
  | halt events e =>
    rw [hmove] at h
    cases h

theorem wellFounded_move : WellFounded fun next m : Machine ↦ m.move.next? = some next :=
  Subrelation.wf weights_next (InvImage.wf weights (WellFounded.cutExpand Nat.lt_wfRel.wf))

theorem poll?_of_le {n k : Nat} (hle : n ≤ k) {m : Machine} {answer : Traced (Option Item × Option Machine)}
    (h : m.poll? n = some answer) : m.poll? k = some answer := by
  induction n generalizing k m answer with
  | zero => cases h
  | succ n ih =>
    obtain ⟨k, rfl⟩ := Nat.exists_eq_add_of_le' hle
    have hlater {next : Machine} {later : Traced (Option Item × Option Machine)} :
        next.poll? n = some later → next.poll? (k + n) = some later := ih (Nat.le_add_left n k)
    rw [← Nat.add_assoc, poll?]
    rw [poll?] at h
    cases hmove : m.move with
    | work events next =>
      rw [hmove] at h
      obtain ⟨later, hpoll, rfl⟩ := Option.map_eq_some_iff.1 h
      simp only [hlater hpoll, Option.map_some]
    | give row next | halt events e =>
      rw [hmove] at h
      exact h

theorem answer?_of_le {moves more : Nat} (hle : moves ≤ more) {n : Nat} {m : Option Machine}
    {answer : Traced (Option Item)} (h : answer? moves n m = some answer) : answer? more n m = some answer := by
  induction n generalizing m with
  | zero =>
    cases m with
    | none => exact h
    | some m =>
      obtain ⟨first, hpoll, rfl⟩ := Option.map_eq_some_iff.1 h
      rw [answer?, poll?_of_le hle hpoll, Option.map_some]
  | succ n ih =>
    cases m with
    | none => exact h
    | some m =>
      obtain ⟨first, hpoll, hlater⟩ := Option.bind_eq_some_iff.1 h
      rw [answer?, poll?_of_le hle hpoll, Option.bind_some]
      exact ih hlater

theorem answered_of_poll {moves : Nat} {m : Machine} {first : Traced (Option Item × Option Machine)}
    (hpoll : m.poll? (moves + 1) = some first)
    (hlater : ∀ n, ∃ answer, answer? moves n first.value.2 = some answer) :
    ∃ moves, ∀ n, ∃ answer, answer? moves n (some m) = some answer := by
  refine ⟨moves + 1, fun n ↦ ?_⟩
  cases n with
  | zero =>
    rw [answer?, hpoll]
    exact ⟨_, rfl⟩
  | succ n =>
    obtain ⟨answer, hanswer⟩ := hlater n
    rw [answer?, hpoll]
    exact ⟨answer, answer?_of_le (Nat.le_succ moves) hanswer⟩

theorem exists_moves (m : Machine) : ∃ moves, ∀ n, ∃ answer, answer? moves n (some m) = some answer := by
  induction m using wellFounded_move.induction with
  | h m ih =>
    cases hmove : m.move with
    | work events next =>
      obtain ⟨moves, hmoves⟩ := ih next (by rw [hmove, Move.next?])
      obtain ⟨_, hanswer⟩ := hmoves 0
      obtain ⟨first, hfirst, -⟩ := Option.map_eq_some_iff.1 hanswer
      have hpoll : m.poll? (moves + 1) = some ⟨events ++ first.events, first.value⟩ := by
        rw [poll?, hmove]
        simp only [hfirst, Option.map_some]
      refine answered_of_poll hpoll fun n ↦ ?_
      have hlater := hmoves (n + 1)
      rwa [answer?, hfirst, Option.bind_some] at hlater
    | give row next =>
      obtain ⟨moves, hmoves⟩ := ih next (by rw [hmove, Move.next?])
      have hpoll : m.poll? (moves + 1) = some ⟨[], some (.ok row), some next⟩ := by rw [poll?, hmove]
      exact answered_of_poll hpoll hmoves
    | halt events e =>
      have hpoll : m.poll? 1 = some ⟨events, e.map .error, none⟩ := by rw [poll?, hmove]
      exact answered_of_poll hpoll fun n ↦ ⟨⟨[], none⟩, by cases n <;> rfl⟩

end Machine

/-- Every enumeration ends. No machine goes on for ever; there is a number of moves in which the one that starts with
the steps answers any poll, as the enumeration answers it and with what is reported in that poll; and from some poll
on there is nothing more. -/
theorem enumerate_terminates (row : Row) (scope : Scope) (steps : List (Step Empty)) :
    (WellFounded fun next m : Machine ↦ m.move.next? = some next) ∧
      (∃ moves, ∀ n, ∃ answer, Machine.answer? moves n (some (.start row scope steps)) = some answer ∧
        (enumerate row scope steps).given n = answer.value ∧
        (enumerate row scope steps).reported (n + 1) =
          (enumerate row scope steps).reported n ++ answer.events) ∧
      ∃ n, ∀ m, n ≤ m → (enumerate row scope steps).given m = none := by
  refine ⟨Machine.wellFounded_move, ?_, ?_⟩
  · obtain ⟨moves, hmoves⟩ := (Machine.start row scope steps).exists_moves
    refine ⟨moves, fun n ↦ ?_⟩
    obtain ⟨answer, hanswer⟩ := hmoves n
    obtain ⟨hgiven, hreported⟩ := Machine.answer_traversal hanswer
    exact ⟨answer, hanswer, hgiven, hreported⟩
  · refine ⟨(Visit.items (trace row scope steps)).length, fun m hm ↦ ?_⟩
    rw [given_enumerate, List.getElem?_eq_none hm]

end RowProduct
