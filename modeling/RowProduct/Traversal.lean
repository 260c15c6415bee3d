import RowProduct.Event

namespace RowProduct

abbrev Item := Except Error Row

inductive Traversal where
  | done
  | item (x : Item) (next : Unit → Traversal)
  /-- Gives nothing at one poll, though more may follow. -/
  | pause (next : Unit → Traversal)
  | report (events : List Event) (next : Unit → Traversal)
  /-- A row at every poll, for ever. -/
  | endless (rows : Nat → Traced Row) (start : Nat)

namespace Traversal

def fail (e : Error) : Traversal := .item (.error e) fun _ ↦ .done

def perform {α : Type} (action : Unit → Traced α) (use : α → Traversal) : Traversal :=
  .report [] fun _ ↦
    let outcome := action ()
    .report outcome.events fun _ ↦ use outcome.value

/-- Polls a traversal; `seen` holds what the poll has reported already, the latest first. -/
def pollFrom (seen : List Event) : Traversal → Traced (Option Item × Traversal)
  | .done => ⟨seen.reverse, none, .done⟩
  | .item x next => ⟨seen.reverse, some x, next ()⟩
  | .pause next => ⟨seen.reverse, none, next ()⟩
  | .report events next => (next ()).pollFrom (events.reverseAux seen)
  | .endless rows start =>
    let row := rows start
    ⟨seen.reverse ++ row.events, some (.ok row.value), .endless rows (start + 1)⟩

def poll (t : Traversal) : Traced (Option Item × Traversal) := t.pollFrom []

theorem pollFrom_eq (seen : List Event) (t : Traversal) :
    t.pollFrom seen = ⟨seen.reverse ++ t.poll.events, t.poll.value⟩ := by
  induction t generalizing seen with
  | report events next ih =>
    rw [poll, pollFrom, pollFrom, ih, ih () (events.reverseAux [])]
    simp [List.reverseAux_eq]
  | _ => simp [poll, pollFrom]

@[simp]
theorem poll_report (events : List Event) (next : Unit → Traversal) :
    (report events next).poll = ⟨events ++ (next ()).poll.events, (next ()).poll.value⟩ := by
  rw [poll, pollFrom, pollFrom_eq]
  simp [List.reverseAux_eq]

/-- Goes on with `after` where the first traversal gives nothing for the first time; an error is the end of
both. -/
def append (after : Unit → Traversal) : Traversal → Traversal
  | .done => after ()
  | .item (.ok row) next => .item (.ok row) fun _ ↦ (next ()).append after
  | .item (.error e) _ => fail e
  | .pause _ => after ()
  | .report events next => .report events fun _ ↦ (next ()).append after
  | .endless rows start => .endless rows start

/-- Runs the traversal to its end within one poll and goes on with its rows; an error takes their place. -/
def gather (use : List Row → Traversal) (rows : List Row) : Traversal → Traversal
  | .done => use rows.reverse
  | .item (.ok row) next => .report [] fun _ ↦ (next ()).gather use (row :: rows)
  | .item (.error e) _ => fail e
  | .pause _ => use rows.reverse
  | .report events next => .report events fun _ ↦ (next ()).gather use rows
  | .endless _ _ => fail .endless

/-- All rows up to where the traversal gives nothing, or its first error. -/
def collectFrom (seen : List Event) (rows : List Row) : Traversal → Traced (Except Error (List Row))
  | .done => ⟨seen.reverse, .ok rows.reverse⟩
  | .item (.ok row) next => (next ()).collectFrom seen (row :: rows)
  | .item (.error e) _ => ⟨seen.reverse, .error e⟩
  | .pause _ => ⟨seen.reverse, .ok rows.reverse⟩
  | .report events next => (next ()).collectFrom (events.reverseAux seen) rows
  | .endless _ _ => ⟨seen.reverse, .error .endless⟩

def collect (t : Traversal) : Traced (Except Error (List Row)) := t.collectFrom [] []

end Traversal

end RowProduct
