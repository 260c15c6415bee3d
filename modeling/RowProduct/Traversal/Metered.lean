import RowProduct.Traversal

namespace RowProduct.Traversal

def finish (reason : Finish) (rows : Nat) : Traversal :=
  .report [.finished reason rows] fun _ ↦ .done

def progress (interval : Option Nat) (rows : Nat) : List Event :=
  if interval.any (rows % · == 0) then [.progress rows] else []

def meteredRows (interval : Option Nat) (rows : Nat → Traced Row) (emitted start : Nat) : Nat → Traversal
  | 0 => finish .limit emitted
  | n + 1 =>
    perform (fun _ ↦ rows start) fun row ↦
      .report (progress interval (emitted + 1)) fun _ ↦
        .item (.ok row) fun _ ↦ meteredRows interval rows (emitted + 1) (start + 1) n

/-- The traversal after `emitted` rows. Once the limit is reached its source is left alone. -/
def metered (limit interval : Option Nat) (emitted : Nat) (t : Traversal) : Traversal :=
  if limit.any (· ≤ emitted) then finish .limit emitted
  else
    match t with
    | .done => finish .exhausted emitted
    | .item (.ok row) next =>
      .report (progress interval (emitted + 1)) fun _ ↦
        .item (.ok row) fun _ ↦ (next ()).metered limit interval (emitted + 1)
    | .item (.error e) _ => .report [.failed e, .finished .error emitted] fun _ ↦ fail e
    | .pause _ => finish .exhausted emitted
    | .report events next => .report events fun _ ↦ (next ()).metered limit interval emitted
    | .endless rows start =>
      match limit with
      | some limit => meteredRows interval rows emitted start (limit - emitted)
      | none =>
        .endless (fun n ↦ do
          let row ← rows n
          ⟨progress interval (emitted + (n - start) + 1), row⟩) start

end RowProduct.Traversal
