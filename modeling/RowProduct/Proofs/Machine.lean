import RowProduct.Proofs.Polling
import RowProduct.Enumeration

namespace RowProduct

open Traversal

inductive Task where
  | visit (row : Row) (scope : Scope) (steps : List (Step Empty))
  | values (name : String) (vs : List Value) (row : Row) (scope : Scope) (rest : List (Step Empty))
  | entries (test : Option EntryTest) (index : Nat) (vs : List Value) (row : Row) (scope : Scope)
    (rest : List (Step Empty))

structure OpenGroup where
  column : String
  rows : List Row
  row : Row
  scope : Scope
  rest : List (Step Empty)
  tasks : List Task

def OpenGroup.branch (g : OpenGroup) (rows : List Row) : Task :=
  .visit (g.row.insert g.column (.array (rows.map Record.toValue))) g.scope g.rest

/-- The enumeration as a machine that makes one small move at a time. Nothing recurses on the steps here: a block or a
dataset goes back on the stack as a longer list of steps, branches are taken up one by one, and a group is open
until its nested steps have no task left. -/
structure Machine where
  tasks : List Task
  groups : List OpenGroup

inductive Move where
  | work (events : List Event) (next : Machine)
  | give (row : Row) (next : Machine)
  | halt (events : List Event) (e : Option Error)

def Step.move (rest : List (Step Empty)) (row : Row) (scope : Scope) (tasks : List Task)
    (groups : List OpenGroup) (step : Step Empty) : Move :=
  let dispatched : Event := .dispatch row scope step.kind rest.length
  match step with
  | .columns [] => .halt [dispatched] (some (.ofStep (.object [])))
  | .columns (c :: block) =>
    .work [dispatched] ⟨.visit row scope ((c :: block).map .column ++ rest) :: tasks, groups⟩
  | .dataset entries => .work [dispatched] ⟨.visit row scope (.forEach entries :: rest) :: tasks, groups⟩
  | .unrecognized v => .halt [dispatched] (some (.ofStep v))
  | .column c =>
    let resolved := c.resolve scope
    match resolved.value with
    | .ok vs => .work (dispatched :: resolved.events) ⟨.values c.name vs row scope rest :: tasks, groups⟩
    | .error e => .halt (dispatched :: resolved.events) (some e)
  | .merge entries test => .work [dispatched] ⟨.entries test 0 entries row scope rest :: tasks, groups⟩
  | .filter test =>
    let passes := test row
    .work (dispatched :: passes.events) ⟨if passes.value then .visit row scope rest :: tasks else tasks, groups⟩
  | .group name steps =>
    .work [dispatched] ⟨[.visit ∅ scope steps], ⟨name, [], row, scope, rest, tasks⟩ :: groups⟩
  | .select names =>
    let kept := names.filter row.contains
    .work [dispatched] ⟨.visit (row.select kept) (scope.select kept) rest :: tasks, groups⟩
  | .discard names => .work [dispatched] ⟨.visit (row.discard names) (scope.discard names) rest :: tasks, groups⟩
  | .operator op => op.elim

def Task.move (tasks : List Task) (groups : List OpenGroup) : Task → Move
  | .visit row _ [] =>
    match groups with
    | [] => .give row ⟨tasks, []⟩
    | g :: groups => .work [] ⟨tasks, { g with rows := row :: g.rows } :: groups⟩
  | .visit row scope (step :: rest) => step.move rest row scope tasks groups
  | .values _ [] _ _ _ | .entries _ _ [] _ _ _ => .work [] ⟨tasks, groups⟩
  | .values name (v :: vs) row scope rest =>
    .work [] ⟨.visit (row.insert name v) (scope.insert name v) rest :: .values name vs row scope rest :: tasks, groups⟩
  | .entries test index (.object top :: vs) row scope rest =>
    let passes : Traced Bool := test.elim (return true) fun test ↦ test scope top
    let others := .entries test (index + 1) vs row scope rest :: tasks
    .work passes.events
      ⟨if passes.value then .visit (row.overlay top) (scope.overlay top) rest :: others else others, groups⟩
  | .entries _ index (v :: _) _ _ _ => .halt [.rejected index] (some (.ofEntry index v))

namespace Machine

def start (row : Row) (scope : Scope) (steps : List (Step Empty)) : Machine := ⟨[.visit row scope steps], []⟩

def move : Machine → Move
  | ⟨[], []⟩ => .halt [] none
  | ⟨[], g :: groups⟩ =>
    let rows := g.rows.reverse
    .work [.grouped g.column rows.length] ⟨g.branch rows :: g.tasks, groups⟩
  | ⟨task :: tasks, groups⟩ => task.move tasks groups

/-- The answer to a poll, if it is found in so many moves, and the machine that is left. After an error or a none
there is no machine any more. -/
def poll? : Nat → Machine → Option (Traced (Option Item × Option Machine))
  | 0, _ => none
  | n + 1, m =>
    match m.move with
    | .work events next => (next.poll? n).map fun answer ↦ ⟨events ++ answer.events, answer.value⟩
    | .give row next => some ⟨[], some (.ok row), some next⟩
    | .halt events e => some ⟨events, e.map .error, none⟩

def answer? (moves : Nat) : Nat → Option Machine → Option (Traced (Option Item))
  | _, none => some ⟨[], none⟩
  | 0, some m => (m.poll? moves).map fun answer ↦ ⟨answer.events, answer.value.1⟩
  | n + 1, some m => (m.poll? moves).bind fun answer ↦ answer? moves n answer.value.2

end Machine

def Task.traversal (after : Unit → Traversal) : Task → Traversal
  | .visit row scope steps => expandAll steps row scope after
  | .values name vs row scope rest =>
    branches (fun v ↦ expandAll rest (row.insert name v) (scope.insert name v)) vs after
  | .entries test index vs row scope rest => mergeFrom test (expandAll rest) row scope after index vs

def Task.traverseAll : List Task → Traversal
  | [] => .done
  | task :: tasks => task.traversal fun _ ↦ traverseAll tasks

def OpenGroup.gather (g : OpenGroup) (nested : Traversal) : Traversal :=
  nested.gather (fun rows ↦ .report [.grouped g.column rows.length] fun _ ↦
    Task.traverseAll (g.branch rows :: g.tasks)) g.rows

def Machine.traversal (m : Machine) : Traversal :=
  m.groups.foldl (fun nested g ↦ g.gather nested) (Task.traverseAll m.tasks)

namespace Traversal

inductive Reports (last : Traversal) : List Event → Traversal → Prop
  | refl : Reports last [] last
  | report {events more : List Event} {next : Unit → Traversal} :
      Reports last more (next ()) → Reports last (events ++ more) (.report events next)

namespace Reports

variable {t last : Traversal} {events : List Event}

theorem one (events : List Event) (next : Unit → Traversal) : Reports (next ()) events (.report events next) := by
  have h := @Reports.report (next ()) events [] next .refl
  rwa [List.append_nil] at h

theorem perform {α : Type} (action : Unit → Traced α) (use : α → Traversal) :
    Reports (use (action ()).value) (action ()).events (perform action use) :=
  @Reports.report _ [] _ _ (one (action ()).events fun _ ↦ use (action ()).value)

theorem gather (h : Reports last events t) (g : OpenGroup) : Reports (g.gather last) events (g.gather t) := by
  induction h with
  | refl => exact .refl
  | report _ ih => exact .report ih

theorem enclose (h : Reports last events t) (groups : List OpenGroup) :
    Reports (groups.foldl (fun nested g ↦ g.gather nested) last) events
      (groups.foldl (fun nested g ↦ g.gather nested) t) := by
  induction groups generalizing t last with
  | nil => exact h
  | cons g groups ih => exact ih (h.gather g)

theorem poll (h : Reports last events t) : t.poll = ⟨events ++ last.poll.events, last.poll.value⟩ := by
  induction h with
  | refl => rfl
  | report _ ih => rw [poll_report, ih, List.append_assoc]

end Reports

theorem enclose_fail (e : Error) (groups : List OpenGroup) :
    groups.foldl (fun nested g ↦ g.gather nested) (fail e) = fail e := by
  induction groups with
  | nil => rfl
  | cons g groups ih => exact ih

end Traversal

def Move.Follows (t : Traversal) : Move → Prop
  | .work events next => Reports next.traversal events t
  | .give row next => t = .item (.ok row) fun _ ↦ next.traversal
  | .halt events e => Reports (e.elim .done fail) events t

theorem Move.Follows.halt {t : Traversal} {events : List Event} {e : Error} (h : Reports (fail e) events t)
    (groups : List OpenGroup) :
    (Move.halt events (some e)).Follows (groups.foldl (fun nested g ↦ g.gather nested) t) := by
  have henclosed := h.enclose groups
  rwa [enclose_fail] at henclosed

theorem Task.traverseAll_ite (passes : Bool) (task : Task) (tasks : List Task) :
    traverseAll (if passes then task :: tasks else tasks) =
      if passes then task.traversal fun _ ↦ traverseAll tasks else traverseAll tasks := by
  cases passes <;> rfl

theorem ColumnBlock.expand_eq (rest : List (Step Empty)) (block : ColumnBlock) :
    ColumnBlock.expand rest.length (expandAll rest) block = expandAll (block.map .column ++ rest) := by
  induction block with
  | nil => rfl
  | cons c block ih =>
    funext row scope after
    rw [ColumnBlock.expand, ih, List.map_cons, List.cons_append, expandAll, List.length_append, List.length_map]
    rfl

theorem Step.move_follows (rest : List (Step Empty)) (row : Row) (scope : Scope) (tasks : List Task)
    (groups : List OpenGroup) (step : Step Empty) :
    (step.move rest row scope tasks groups).Follows
      (Machine.traversal ⟨.visit row scope (step :: rest) :: tasks, groups⟩) := by
  let after (_ : Unit) := Task.traverseAll tasks
  have hdispatch {events : List Event} {last : Traversal}
      (h : Reports last events (step.expand rest (expandAll rest) row scope after)) :
      Reports last (.dispatch row scope step.kind rest.length :: events)
        (Task.traverseAll (.visit row scope (step :: rest) :: tasks)) :=
    @Reports.report last [_] _ _ h
  cases step with
  | columns block =>
    cases block with
    | nil => exact .halt (hdispatch .refl) groups
    | cons c block =>
      refine (hdispatch ?_).enclose groups
      rw [Step.expand, ColumnBlock.expand_eq]
      exact .refl
  | dataset entries => exact (hdispatch .refl).enclose groups
  | unrecognized v => exact .halt (hdispatch .refl) groups
  | column c =>
    rw [Step.expand, Column.expand] at hdispatch
    have hperform := hdispatch (.perform _ _)
    rw [Step.move]
    cases hresolved : (c.resolve scope).value with
    | ok vs =>
      rw [hresolved] at hperform
      exact hperform.enclose groups
    | error e =>
      rw [hresolved] at hperform
      exact .halt hperform groups
  | merge entries test => exact (hdispatch .refl).enclose groups
  | filter test =>
    let passed : Task := .visit row scope rest
    have hperform : Reports (if (test row).value then passed.traversal after else Task.traverseAll tasks) _ _ :=
      hdispatch (.perform (fun _ ↦ test row) fun passes ↦
        if passes then expandAll rest row scope after else after ())
    rw [← Task.traverseAll_ite] at hperform
    exact hperform.enclose groups
  | group column steps => exact (hdispatch .refl).enclose groups
  | select names => exact (hdispatch .refl).enclose groups
  | discard names => exact (hdispatch .refl).enclose groups
  | operator op => exact op.elim

theorem Task.move_follows (tasks : List Task) (groups : List OpenGroup) (task : Task) :
    (task.move tasks groups).Follows (Machine.traversal ⟨task :: tasks, groups⟩) := by
  cases task with
  | visit row scope steps =>
    cases steps with
    | nil =>
      cases groups with
      | nil => rfl
      | cons g groups =>
        let g' : OpenGroup := { g with rows := row :: g.rows }
        have hrow : Reports (g'.gather (traverseAll tasks)) []
            (g.gather (traverseAll (.visit row scope [] :: tasks))) :=
          .one [] fun _ ↦ g'.gather (traverseAll tasks)
        exact hrow.enclose groups
    | cons step rest => exact step.move_follows rest row scope tasks groups
  | values name vs row scope rest =>
    cases vs with
    | nil => exact Reports.refl.enclose groups
    | cons v vs => exact Reports.refl.enclose groups
  | entries test index vs row scope rest =>
    cases vs with
    | nil => exact Reports.refl.enclose groups
    | cons v vs =>
      cases v with
      | object top =>
        cases test with
        | none => exact Reports.refl.enclose groups
        | some test =>
          let passed : Task := .visit (row.overlay top) (scope.overlay top) rest
          let others := .entries (some test) (index + 1) vs row scope rest :: tasks
          let after (_ : Unit) := traverseAll others
          have hperform : Reports (if (test scope top).value then passed.traversal after else traverseAll others)
              (test scope top).events
              (traverseAll (.entries (some test) index (.object top :: vs) row scope rest :: tasks)) :=
            .perform (fun _ ↦ test scope top) fun passes ↦ if passes then passed.traversal after else after ()
          rw [← traverseAll_ite] at hperform
          exact hperform.enclose groups
      | _ => exact .halt (.one [.rejected index] fun _ ↦ fail (.ofEntry index _)) groups

namespace Machine

theorem move_follows (m : Machine) : m.move.Follows m.traversal := by
  obtain ⟨tasks, groups⟩ := m
  cases tasks with
  | nil =>
    cases groups with
    | nil => exact .refl
    | cons g groups =>
      have hrows : Reports (Task.traverseAll (g.branch g.rows.reverse :: g.tasks))
          [.grouped g.column g.rows.reverse.length] (g.gather (Task.traverseAll [])) :=
        .one _ fun _ ↦ Task.traverseAll (g.branch g.rows.reverse :: g.tasks)
      exact hrows.enclose groups
  | cons task tasks => exact task.move_follows tasks groups

def left (m : Option Machine) : Traversal := m.elim .done traversal

theorem poll_traversal {n : Nat} {m : Machine} {answer : Traced (Option Item × Option Machine)}
    (h : m.poll? n = some answer) :
    m.traversal.poll = ⟨answer.events, answer.value.1, left answer.value.2⟩ := by
  induction n generalizing m answer with
  | zero => cases h
  | succ n ih =>
    have hfollows := m.move_follows
    rw [poll?] at h
    cases hmove : m.move with
    | work events next =>
      rw [hmove] at h hfollows
      obtain ⟨later, hlater, rfl⟩ := Option.map_eq_some_iff.1 h
      rw [Reports.poll hfollows, ih hlater]
    | give row next =>
      rw [hmove] at h hfollows
      cases h
      rw [hfollows]
      rfl
    | halt events e =>
      rw [hmove] at h hfollows
      cases h
      rw [Reports.poll hfollows]
      cases e <;> simp [left, poll, pollFrom, fail]

/-- The answers of the machine are those of the enumeration, with what is reported in the same polls. -/
theorem answer_traversal {moves n : Nat} {m : Option Machine} {answer : Traced (Option Item)}
    (h : answer? moves n m = some answer) :
    (left m).given n = answer.value ∧ (left m).reported (n + 1) = (left m).reported n ++ answer.events := by
  induction n generalizing m with
  | zero =>
    cases m with
    | none =>
      cases h
      exact ⟨rfl, rfl⟩
    | some m =>
      obtain ⟨first, hfirst, rfl⟩ := Option.map_eq_some_iff.1 h
      have hpoll : (left (some m)).poll = _ := poll_traversal hfirst
      rw [given, reported, reported, reported, hpoll]
      exact ⟨rfl, List.append_nil _⟩
  | succ n ih =>
    cases m with
    | none =>
      cases h
      exact ⟨congrFun given_done (n + 1), by simp [left]⟩
    | some m =>
      obtain ⟨first, hfirst, hlater⟩ := Option.bind_eq_some_iff.1 h
      obtain ⟨hgiven, hreported⟩ := ih hlater
      have hpoll : (left (some m)).poll = _ := poll_traversal hfirst
      have hsucc (n : Nat) :
          (left (some m)).reported (n + 1) = first.events ++ (left first.value.2).reported n := by
        rw [reported, hpoll]
      rw [given, hpoll, hsucc, hsucc, hreported, List.append_assoc]
      exact ⟨hgiven, rfl⟩

end Machine

end RowProduct
