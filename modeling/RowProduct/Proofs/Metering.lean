import RowProduct.Proofs.Fusing
import RowProduct.Runner

namespace RowProduct

open Traversal Feed

variable {Ω : Type}

/-- What an enumeration reports, as against the run that counts its rows. -/
def Event.isWork : Event → Bool
  | .note _ | .dispatch _ _ _ _ | .grouped _ _ | .rejected _ => true
  | .started _ | .progress _ | .failed _ | .finished _ _ => false

namespace Traversal

def allowed (limit : Option Nat) (emitted n : Nat) : Nat :=
  limit.elim n fun limit ↦ min n (limit - emitted)

theorem allowed_zero (limit : Option Nat) (emitted : Nat) : allowed limit emitted 0 = 0 := by
  cases limit <;> simp [allowed]

theorem allowed_reached {limit : Option Nat} {emitted : Nat} (h : limit.any (· ≤ emitted)) (n : Nat) :
    allowed limit emitted n = 0 := by
  cases limit with
  | none => cases h
  | some limit =>
    have hle : limit ≤ emitted := of_decide_eq_true h
    simp only [allowed, Option.elim_some]
    omega

theorem allowed_succ {limit : Option Nat} {emitted : Nat} (h : ¬ limit.any (· ≤ emitted)) (n : Nat) :
    allowed limit emitted (n + 1) = allowed limit (emitted + 1) n + 1 := by
  cases limit with
  | none => rfl
  | some limit =>
    have hlt : emitted < limit := by simpa using h
    simp only [allowed, Option.elim_some]
    omega

theorem given_finish (reason : Finish) (rows : Nat) : (finish reason rows).given = nothing := by
  rw [finish, given_report, given_done]

theorem filter_finish (reason : Finish) (rows n : Nat) :
    ((finish reason rows).reported n).filter Event.isWork = [] := by
  cases n with
  | zero => rfl
  | succ n => simp [finish, Event.isWork]

theorem filter_progress (interval : Option Nat) (rows : Nat) :
    (progress interval rows).filter Event.isWork = [] := by
  rw [progress]
  split <;> rfl

theorem given_meteredRows (interval : Option Nat) (rows : Nat → Traced Row) (emitted start count n : Nat) :
    (meteredRows interval rows emitted start count).given n =
      if n < count then (endless rows start).given n else none := by
  induction count generalizing emitted start n with
  | zero => rw [meteredRows, given_finish, nothing, if_neg (Nat.not_lt_zero n)]
  | succ count ih =>
    rw [meteredRows, given_perform, given_report]
    cases n with
    | zero => rfl
    | succ n =>
      rw [given_item_succ, ih]
      simp only [Nat.succ_lt_succ_iff]
      rfl

theorem filter_meteredRows (interval : Option Nat) (rows : Nat → Traced Row) (emitted start count n : Nat) :
    ((meteredRows interval rows emitted start count).reported n).filter Event.isWork =
      ((endless rows start).reported (min n count)).filter Event.isWork := by
  induction count generalizing emitted start n with
  | zero => rw [meteredRows, filter_finish, Nat.min_zero]; rfl
  | succ count ih =>
    cases n with
    | zero => rw [Nat.zero_min]; rfl
    | succ n =>
      rw [meteredRows, reported_perform_succ, reported_report_succ, reported_item_succ, List.filter_append,
        List.filter_append, filter_progress, ih, Nat.succ_min_succ, List.nil_append, ← List.filter_append]
      rfl

section

variable {limit : Option Nat} {emitted : Nat}

theorem metered_reached (h : limit.any (· ≤ emitted)) (interval : Option Nat) (t : Traversal) :
    t.metered limit interval emitted = finish .limit emitted := by
  cases t with
  | item x next => cases x <;> simp only [metered, if_pos h]
  | _ => simp only [metered, if_pos h]

theorem metered_done (limit interval : Option Nat) (emitted : Nat) :
    ∃ reason, done.metered limit interval emitted = finish reason emitted := by
  rw [metered]
  split <;> exact ⟨_, rfl⟩

theorem metered_pause (limit interval : Option Nat) (emitted : Nat) (next : Unit → Traversal) :
    ∃ reason, (pause next).metered limit interval emitted = finish reason emitted := by
  rw [metered]
  split <;> exact ⟨_, rfl⟩

theorem given_reached (h : limit.any (· ≤ emitted)) (interval : Option Nat) (t : Traversal) (n : Nat) :
    (t.metered limit interval emitted).given n =
      if n < allowed limit emitted (n + 1) then (t.append fun _ ↦ .done).given n else none := by
  rw [metered_reached h, given_finish, nothing, allowed_reached h, if_neg (Nat.not_lt_zero n)]

theorem filter_reached (h : limit.any (· ≤ emitted)) (interval : Option Nat) (t : Traversal) (n : Nat) :
    ((t.metered limit interval emitted).reported n).filter Event.isWork =
      ((t.append fun _ ↦ .done).reported (allowed limit emitted n)).filter Event.isWork := by
  rw [metered_reached h, filter_finish, allowed_reached h]
  rfl

end

/-- A counted traversal gives what its source gives up to its end, as long as the limit allows it. -/
theorem given_metered (limit interval : Option Nat) (emitted : Nat) (t : Traversal) (n : Nat) :
    (t.metered limit interval emitted).given n =
      if n < allowed limit emitted (n + 1) then (t.append fun _ ↦ .done).given n else none := by
  induction t generalizing emitted n with
  | done =>
    obtain ⟨reason, hreason⟩ := metered_done limit interval emitted
    rw [hreason, given_finish, append, given_done, nothing, ite_self]
  | pause next ih =>
    obtain ⟨reason, hreason⟩ := metered_pause limit interval emitted next
    rw [hreason, given_finish, append, given_done, nothing, ite_self]
  | item x next ih =>
    -- The limit is asked before the source, so a source that would fail may still be left alone.
    by_cases h : limit.any (· ≤ emitted)
    · exact given_reached h interval _ n
    rw [allowed_succ h]
    cases x with
    | error e =>
      rw [metered, if_neg h, append, given_report, given_fail]
      cases n <;> simp [once]
    | ok row =>
      rw [metered, if_neg h, append, given_report]
      cases n with
      | zero => rfl
      | succ n =>
        rw [given_item_succ, given_item_succ, ih]
        simp only [Nat.succ_lt_succ_iff]
  | report events next ih =>
    by_cases h : limit.any (· ≤ emitted)
    · exact given_reached h interval _ n
    simp only [metered, if_neg h, append, given_report, ih]
  | endless rows start =>
    by_cases h : limit.any (· ≤ emitted)
    · exact given_reached h interval _ n
    cases limit with
    | none =>
      rw [metered, if_neg h, given_endless, append, given_endless, allowed, Option.elim_none,
        if_pos n.lt_succ_self]
      rfl
    | some limit =>
      have hlt : n < allowed (some limit) emitted (n + 1) ↔ n < limit - emitted := by
        simp only [allowed, Option.elim_some]
        omega
      simp only [metered, if_neg h, given_meteredRows, append, hlt]

theorem filter_metered (limit interval : Option Nat) (emitted : Nat) (t : Traversal) (n : Nat) :
    ((t.metered limit interval emitted).reported n).filter Event.isWork =
      ((t.append fun _ ↦ .done).reported (allowed limit emitted n)).filter Event.isWork := by
  induction t generalizing emitted n with
  | done =>
    obtain ⟨reason, hreason⟩ := metered_done limit interval emitted
    rw [hreason, filter_finish, append, reported_done]
    rfl
  | pause next ih =>
    obtain ⟨reason, hreason⟩ := metered_pause limit interval emitted next
    rw [hreason, filter_finish, append, reported_done]
    rfl
  | item x next ih =>
    by_cases h : limit.any (· ≤ emitted)
    · exact filter_reached h interval _ n
    cases n with
    | zero => rw [allowed_zero]; rfl
    | succ n =>
      rw [allowed_succ h]
      cases x with
      | error e => simp [metered, h, append, Event.isWork]
      | ok row =>
        simp only [metered, if_neg h, append, reported_report_succ, reported_item_succ, List.filter_append,
          filter_progress, ih, List.nil_append]
  | report events next ih =>
    by_cases h : limit.any (· ≤ emitted)
    · exact filter_reached h interval _ n
    cases n with
    | zero => rw [allowed_zero]; rfl
    | succ n =>
      have hrest := ih () emitted (n + 1)
      rw [allowed_succ h] at hrest ⊢
      simp only [metered, if_neg h, append, reported_report_succ, List.filter_append, hrest]
  | endless rows start =>
    by_cases h : limit.any (· ≤ emitted)
    · exact filter_reached h interval _ n
    cases limit with
    | none =>
      rw [metered, if_neg h, append, allowed, Option.elim_none, reported_endless, reported_endless,
        List.filter_flatMap, List.filter_flatMap]
      refine congrArg (List.range n).flatMap (funext fun m ↦ (List.filter_append ..).trans ?_)
      rw [filter_progress, List.append_nil]
    | some limit =>
      rw [metered, if_neg h]
      exact filter_meteredRows interval rows emitted start (limit - emitted) n

end Traversal

namespace Cursor

def given (c : Cursor) : Feed
  | 0 => c.next.value.1
  | n + 1 => c.next.value.2.given n

def reported (c : Cursor) : Nat → List Event
  | 0 => []
  | n + 1 => c.next.events ++ c.next.value.2.reported n

theorem given_eq (c : Cursor) (n : Nat) : c.given n = c.source.given n := by
  induction n generalizing c with
  | zero => rfl
  | succ n ih => exact ih c.next.value.2

theorem reported_eq (c : Cursor) (n : Nat) : c.reported n = c.source.reported n := by
  induction n generalizing c with
  | zero => rfl
  | succ n ih =>
    have hevents : c.next.events = c.source.poll.events := List.append_nil _
    rw [reported, ih, hevents]
    rfl

end Cursor

namespace Feed

def firstRows (s : Feed) (n : Nat) : List Row :=
  (List.range n).filterMap fun m ↦
    match s m with
    | some (.ok row) => some row
    | _ => none

theorem endsAfter_firstRows {s s' : Feed} {limit : Nat} (hs : ∀ n < limit, isRow (s n))
    (hs' : ∀ n, s' n = if n < limit then s n else none) : EndsAfter none (s.firstRows limit) s' := by
  induction limit generalizing s s' with
  | zero => exact hs' 0
  | succ limit ih =>
    obtain ⟨row, hrow⟩ := exists_of_isRow (hs 0 limit.succ_pos)
    have hfirst : s.firstRows (limit + 1) = row :: firstRows (fun n ↦ s (n + 1)) limit := by
      rw [firstRows, List.range_succ_eq_map, List.filterMap_cons, hrow, List.filterMap_map]
      rfl
    rw [hfirst]
    refine ⟨(hs' 0).trans hrow, ih (fun n hn ↦ hs (n + 1) (Nat.succ_lt_succ hn)) fun n ↦ ?_⟩
    rw [hs']
    simp only [Nat.succ_lt_succ_iff]

end Feed

namespace Runner

variable [Operators Ω]

def unlimited (r : Runner) : Runner := ⟨{ r.config with rowLimit := none }, r.valid⟩

variable (r : Runner) (step : Step Ω) (rest : List (Step Ω))

theorem given_start (n : Nat) :
    (r.start (step :: rest)).value.given n =
      if r.config.rowLimit.all (n < ·) then (enumerate ∅ ∅ (step :: rest)).given n else none := by
  have hlimit : n < allowed r.config.rowLimit 0 (n + 1) ↔ r.config.rowLimit.all (n < ·) := by
    cases r.config.rowLimit with
    | none => simp [allowed]
    | some limit =>
      simp only [allowed, Option.elim_some, Option.all_some, decide_eq_true_eq]
      omega
  have h := given_metered r.config.rowLimit r.config.progressInterval 0 (enumerate ∅ ∅ (step :: rest)) n
  rw [enumerate_append_done] at h
  simp only [hlimit] at h
  exact (Cursor.given_eq _ n).trans h

theorem filter_start (n : Nat) :
    ((r.start (step :: rest)).value.reported n).filter Event.isWork =
      ((enumerate ∅ ∅ (step :: rest)).reported (r.config.rowLimit.elim n (min n))).filter Event.isWork := by
  have h := filter_metered r.config.rowLimit r.config.progressInterval 0 (enumerate ∅ ∅ (step :: rest)) n
  rw [enumerate_append_done] at h
  rw [Cursor.reported_eq]
  exact h

theorem collect_of_endsAfter {e : Option Error} {rows : List Row}
    (h : EndsAfter e rows (r.start (step :: rest)).value.given) :
    (r.collect (step :: rest)).value = e.elim (.ok rows) .error :=
  Traversal.collect_value (h.congr fun n _ ↦ (Cursor.given_eq _ n).symm)

theorem collect_unlimited {limit : Nat} (hlimit : r.config.rowLimit = some limit)
    (h : ¬ ∀ n < limit, isRow ((enumerate ∅ ∅ (step :: rest)).given n)) :
    (r.collect (step :: rest)).value = (r.unlimited.collect (step :: rest)).value := by
  simp only [Classical.not_forall] at h
  obtain ⟨n, hn, hrow⟩ := h
  obtain ⟨e, rows, hlength, hends⟩ := exists_endsAfter hrow
  have hstart : EndsAfter e rows (r.start (step :: rest)).value.given := hends.congr fun m hm ↦ by
    have hlt : m < limit := by omega
    rw [given_start, hlimit, if_pos (by simpa using hlt)]
  have hfree : EndsAfter e rows (r.unlimited.start (step :: rest)).value.given := hends.congr fun m _ ↦ by
    rw [given_start]
    rfl
  rw [collect_of_endsAfter r step rest hstart, collect_of_endsAfter r.unlimited step rest hfree]

end Runner

/-- A limit on the rows of a run is the same as not polling any further. Each poll of a run answers as the
same poll of the enumeration does, as long as the number of the poll is within the limit, and the enumeration is
polled no more than that; what is collected is the rows up to the limit or, when something else than a row
comes first, what is collected without a limit. -/
theorem run_stops_at_limit [Operators Ω] (r : Runner) (step : Step Ω) (rest : List (Step Ω)) :
    (∀ n, (r.start (step :: rest)).value.given n =
      if r.config.rowLimit.all (n < ·) then (enumerate ∅ ∅ (step :: rest)).given n else none) ∧
    (∀ n, ((r.start (step :: rest)).value.reported n).filter Event.isWork =
      ((enumerate ∅ ∅ (step :: rest)).reported (r.config.rowLimit.elim n (min n))).filter Event.isWork) ∧
    (r.start (step :: rest)).events.filter Event.isWork = [] ∧
    (r.collect (step :: rest)).value =
      (match r.config.rowLimit with
      | some limit =>
        if ∀ n < limit, isRow ((enumerate ∅ ∅ (step :: rest)).given n) then
          .ok ((enumerate ∅ ∅ (step :: rest)).given.firstRows limit)
        else (r.unlimited.collect (step :: rest)).value
      | none => (r.unlimited.collect (step :: rest)).value) ∧
    -- Without steps there is nothing to run.
    (r.start ([] : List (Step Ω))).events = [] ∧
    ∀ n, (r.start ([] : List (Step Ω))).value.given n = none ∧
      (r.start ([] : List (Step Ω))).value.reported n = [] := by
  refine ⟨r.given_start step rest, r.filter_start step rest, rfl, ?_, rfl, ?_⟩
  · cases hlimit : r.config.rowLimit with
    | none =>
      have hr : r.unlimited = r := by
        obtain ⟨⟨rowLimit, progressInterval⟩, valid⟩ := r
        cases hlimit
        rfl
      rw [hr]
    | some limit =>
      dsimp only
      split
      · next h =>
        refine r.collect_of_endsAfter step rest (endsAfter_firstRows h fun n ↦ ?_)
        rw [r.given_start, hlimit]
        simp only [Option.all_some, decide_eq_true_eq]
      · next h => exact r.collect_unlimited step rest hlimit h
  · intro n
    rw [Cursor.given_eq, Cursor.reported_eq]
    exact ⟨congrFun given_done n, reported_done n⟩

end RowProduct
