import RowProduct.Proofs.Metering

namespace RowProduct

open Traversal Feed

variable {Ω : Type}

namespace Traversal

def later (t : Traversal) : Nat → Traversal
  | 0 => t
  | n + 1 => t.poll.value.2.later n

theorem later_succ (t : Traversal) (n : Nat) : t.later (n + 1) = (t.later n).poll.value.2 := by
  induction n generalizing t with
  | zero => rfl
  | succ n ih => exact ih t.poll.value.2

/-- What a counted traversal reports of its own when it answers a poll after so many rows. -/
def remarks (limit interval : Option Nat) (emitted : Nat) : Option Item → List Event
  | some (.ok _) => progress interval (emitted + 1)
  | some (.error e) => [.failed e, .finished .error emitted]
  | none => [.finished (if limit.any (· ≤ emitted) then .limit else .exhausted) emitted]

/-- The last argument counts the rows of a source after so many others. An endless source without a limit stays
one traversal from its first poll on; any other is counted anew at every row. -/
inductive Counts (limit interval : Option Nat) : Traversal → Nat → Traversal → Prop
  | metered (t : Traversal) (emitted : Nat) : Counts limit interval t emitted (t.metered limit interval emitted)
  | endless (rows : Nat → Traced Row) (emitted start n : Nat) : limit = none →
      Counts limit interval (endless rows (start + n)) (emitted + n)
        (endless (fun m ↦ do
          let row ← rows m
          ⟨progress interval (emitted + (m - start) + 1), row⟩) (start + n))

section

variable {limit interval : Option Nat} {emitted : Nat} {t u : Traversal}

theorem poll_finish (reason : Finish) (rows : Nat) :
    (finish reason rows).poll = ⟨[.finished reason rows], none, .done⟩ := rfl

theorem metered_endless (limit : Nat) (interval : Option Nat) (rows : Nat → Traced Row) (emitted start : Nat) :
    (endless rows start).metered (some limit) interval emitted =
      meteredRows interval rows emitted start (limit - emitted) := by
  rw [metered]
  split
  · next h =>
    have hle : limit ≤ emitted := of_decide_eq_true h
    rw [Nat.sub_eq_zero_of_le hle, meteredRows]
  · rfl

theorem poll_reached (h : Counts limit interval t emitted u) (hlimit : limit.any (· ≤ emitted)) :
    u.poll = ⟨remarks limit interval emitted none, none, .done⟩ := by
  rw [remarks, if_pos hlimit]
  cases h with
  | metered t emitted => rw [metered_reached hlimit, poll_finish]
  | endless rows emitted start n hnone =>
    subst hnone
    cases hlimit

structure Passes (limit interval : Option Nat) (t : Traversal) (emitted : Nat) (u : Traversal) : Prop where
  events : u.poll.events = t.poll.events ++ remarks limit interval emitted t.poll.value.1
  answer : u.poll.value.1 = t.poll.value.1
  counts : isRow t.poll.value.1 → Counts limit interval t.poll.value.2 (emitted + 1) u.poll.value.2
  done : ¬ isRow t.poll.value.1 → u.poll.value.2 = .done

theorem passes_endless (hlimit : limit = none) (rows : Nat → Traced Row) (emitted start n : Nat) :
    Passes limit interval (endless rows (start + n)) (emitted + n)
      (endless (fun m ↦ do
        let row ← rows m
        ⟨progress interval (emitted + (m - start) + 1), row⟩) (start + n)) := by
  have hprogress : progress interval (emitted + (start + n - start) + 1) = progress interval (emitted + n + 1) := by
    rw [Nat.add_sub_cancel_left]
  refine ⟨?_, rfl, fun _ ↦ .endless rows emitted start (n + 1) hlimit, fun h ↦ absurd rfl h⟩
  exact congrArg ((rows (start + n)).events ++ ·) hprogress

theorem passes_limited {limit : Nat} (h : emitted < limit) (rows : Nat → Traced Row) (start : Nat) :
    Passes (some limit) interval (endless rows start) emitted
      ((endless rows start).metered (some limit) interval emitted) := by
  obtain ⟨count, hcount⟩ : ∃ count, limit - emitted = count + 1 := ⟨limit - emitted - 1, by omega⟩
  have hnext : limit - (emitted + 1) = count := by omega
  rw [metered_endless, hcount, meteredRows, perform]
  refine ⟨?_, ?_, fun _ ↦ ?_, fun h ↦ absurd rfl h⟩
  · rw [poll_report, poll_report, poll_report]
    exact congrArg ((rows start).events ++ ·) (List.append_nil _)
  · rw [poll_report, poll_report, poll_report]
    rfl
  · rw [poll_report, poll_report, poll_report, ← hnext, ← metered_endless]
    exact .metered (endless rows (start + 1)) (emitted + 1)

theorem passes_metered (hlimit : ¬ limit.any (· ≤ emitted)) (t : Traversal) :
    Passes limit interval t emitted (t.metered limit interval emitted) := by
  have hexhausted : remarks limit interval emitted none = [.finished .exhausted emitted] := by
    rw [remarks, if_neg hlimit]
  -- What is below a report is still the same poll, so that case alone uses the induction hypothesis.
  induction t with
  | done | pause next ih =>
    rw [metered, if_neg hlimit]
    refine ⟨?_, rfl, fun h ↦ absurd h Bool.false_ne_true, fun _ ↦ rfl⟩
    exact hexhausted.symm
  | item x next ih =>
    cases x with
    | error e =>
      rw [metered, if_neg hlimit]
      exact ⟨rfl, rfl, fun h ↦ absurd h Bool.false_ne_true, fun _ ↦ rfl⟩
    | ok row =>
      rw [metered, if_neg hlimit]
      refine ⟨?_, ?_, fun _ ↦ ?_, fun h ↦ absurd rfl h⟩
      · rw [poll_report]
        exact List.append_nil _
      · rw [poll_report]
        rfl
      · rw [poll_report]
        exact .metered (next ()) (emitted + 1)
  | report events next ih =>
    obtain ⟨hevents, hanswer, hcounts, hdone⟩ := ih ()
    rw [metered, if_neg hlimit]
    refine ⟨?_, ?_, ?_, ?_⟩
    · rw [poll_report, poll_report, hevents, List.append_assoc]
    · rw [poll_report, poll_report, hanswer]
    · rw [poll_report, poll_report]
      exact hcounts
    · rw [poll_report, poll_report]
      exact hdone
  | endless rows start =>
    cases limit with
    | none =>
      rw [metered, if_neg hlimit]
      exact passes_endless rfl rows emitted start 0
    | some limit => exact passes_limited (by simpa using hlimit) rows start

theorem passes_of_counts (h : Counts limit interval t emitted u) (hlimit : ¬ limit.any (· ≤ emitted)) :
    Passes limit interval t emitted u := by
  cases h with
  | metered t emitted => exact passes_metered hlimit t
  | endless rows emitted start n hnone => exact passes_endless hnone rows emitted start n

end

end Traversal

theorem Feed.length_firstRows_succ (s : Feed) (n : Nat) :
    (s.firstRows (n + 1)).length = (s.firstRows n).length + if isRow (s n) then 1 else 0 := by
  rw [firstRows, firstRows, List.range_succ, List.filterMap_append, List.length_append]
  rcases hs : s n with _ | e | row <;> simp [hs, isRow]

namespace Cursor

def after (c : Cursor) : Nat → Cursor
  | 0 => c
  | n + 1 => c.next.value.2.after n

theorem after_succ (c : Cursor) (n : Nat) : c.after (n + 1) = (c.after n).next.value.2 := by
  induction n generalizing c with
  | zero => rfl
  | succ n ih => exact ih c.next.value.2

theorem given_after (c : Cursor) (n : Nat) : c.given n = (c.after n).next.value.1 := by
  induction n generalizing c with
  | zero => rfl
  | succ n ih => exact ih c.next.value.2

theorem events_next (c : Cursor) : c.next.events = c.source.poll.events := List.append_nil _

theorem emitted_next (c : Cursor) :
    c.next.value.2.emitted = if isRow c.next.value.1 then c.emitted + 1 else c.emitted := by
  rw [next]
  rcases c.source.poll with ⟨events, answer, source⟩
  rcases answer with _ | e | row <;> rfl

theorem emitted_after_succ (c : Cursor) (n : Nat) :
    (c.after (n + 1)).emitted = if isRow (c.given n) then (c.after n).emitted + 1 else (c.after n).emitted := by
  rw [after_succ, emitted_next, ← given_after]

theorem emitted_after (c : Cursor) (n : Nat) : (c.after n).emitted = c.emitted + (c.given.firstRows n).length := by
  induction n with
  | zero => rfl
  | succ n ih =>
    rw [emitted_after_succ, ih, length_firstRows_succ]
    split <;> rfl

def remarks (c : Cursor) (config : Config) : List Event :=
  if c.isRunning then
    Traversal.remarks config.rowLimit config.progressInterval c.emitted c.next.value.1
  else []

/-- A run before its end: its source counts the rows of what is left of the enumeration. -/
structure Live (config : Config) (t : Traversal) (c : Cursor) : Prop where
  counts : Counts config.rowLimit config.progressInterval t c.emitted c.source
  within : config.rowLimit.all (c.emitted ≤ ·)

variable {config : Config} {t : Traversal} {c : Cursor}

theorem next_of_done (h : c.source = .done) : c.next = ⟨[], none, c⟩ := by
  obtain ⟨source, emitted, limit⟩ := c
  cases h
  rfl

theorem after_of_done (h : c.source = .done) (n : Nat) : c.after n = c := by
  induction n with
  | zero => rfl
  | succ n ih => rw [after_succ, ih, next_of_done h]

theorem isRunning_iff : c.isRunning ↔ c.source ≠ .done := by
  rw [isRunning]
  split
  · next h => simp [h]
  · next h => simpa using h

theorem Live.isRunning (h : Live config t c) : c.isRunning := by
  -- The next poll of a source at rest reports nothing, and a live run says at least how it ends.
  refine isRunning_iff.2 fun hdone ↦ ?_
  have hpoll : c.source.poll.events = [] := by rw [hdone]; rfl
  by_cases hlimit : config.rowLimit.any (· ≤ c.emitted)
  · rw [poll_reached h.counts hlimit] at hpoll
    cases hpoll
  · have hpass := passes_of_counts h.counts hlimit
    have hnone : t.poll.value.1 = none := by rw [← hpass.answer, hdone]; rfl
    rw [hpass.events, hnone] at hpoll
    cases (List.append_eq_nil_iff.1 hpoll).2

theorem Live.events (h : Live config t c) :
    c.next.events =
      (if config.rowLimit.any (· ≤ c.emitted) then [] else t.poll.events) ++ c.remarks config := by
  rw [events_next, remarks, if_pos h.isRunning]
  have hanswer : c.next.value.1 = c.source.poll.value.1 := rfl
  split
  · next hlimit => rw [hanswer, poll_reached h.counts hlimit, List.nil_append]
  · next hlimit =>
    have hpass := passes_of_counts h.counts hlimit
    rw [hanswer, hpass.events, hpass.answer]

theorem Live.next_row (h : Live config t c) (hrow : isRow c.next.value.1) :
    Live config t.poll.value.2 c.next.value.2 := by
  have hanswer : isRow c.source.poll.value.1 := hrow
  have hlimit : ¬ config.rowLimit.any (· ≤ c.emitted) := fun hlimit ↦ by
    rw [poll_reached h.counts hlimit] at hanswer
    cases hanswer
  have hpass := passes_of_counts h.counts hlimit
  have hemitted : c.next.value.2.emitted = c.emitted + 1 := by rw [emitted_next, if_pos hrow]
  rw [hpass.answer] at hanswer
  refine ⟨?_, ?_⟩
  · rw [hemitted]
    exact hpass.counts hanswer
  · rw [hemitted]
    cases hconfig : config.rowLimit with
    | none => rfl
    | some limit =>
      simp only [hconfig, Option.any_some, decide_eq_true_eq] at hlimit
      simp only [Option.all_some, decide_eq_true_eq]
      omega

theorem Live.next_end (h : Live config t c) (hend : ¬ isRow c.next.value.1) : c.next.value.2.source = .done := by
  have hsource : c.next.value.2.source = c.source.poll.value.2 := rfl
  have hanswer : ¬ isRow c.source.poll.value.1 := hend
  rw [hsource]
  by_cases hlimit : config.rowLimit.any (· ≤ c.emitted)
  · rw [poll_reached h.counts hlimit]
  · have hpass := passes_of_counts h.counts hlimit
    rw [hpass.answer] at hanswer
    exact hpass.done hanswer

-- A run is live as long as it has given rows only, and the next poll takes it from there to its end.
theorem Live.after (h : Live config t c) (n : Nat) :
    if ∀ m < n, isRow (c.given m) then Live config (t.later n) (c.after n) else (c.after n).source = .done := by
  induction n with
  | zero =>
    rw [if_pos fun m hm ↦ absurd hm (Nat.not_lt_zero m)]
    exact h
  | succ n ih =>
    rw [after_succ, later_succ]
    simp only [Nat.forall_lt_succ_right]
    by_cases hrows : ∀ m < n, isRow (c.given m)
    · rw [if_pos hrows] at ih
      by_cases hrow : isRow (c.given n)
      · rw [if_pos ⟨hrows, hrow⟩]
        rw [given_after] at hrow
        exact ih.next_row hrow
      · rw [if_neg fun h ↦ hrow h.2]
        rw [given_after] at hrow
        exact ih.next_end hrow
    · rw [if_neg hrows] at ih
      rw [if_neg fun h ↦ hrows h.1, next_of_done ih]
      exact ih

end Cursor

def Event.isFinished : Event → Bool
  | .finished _ _ => true
  | _ => false

def Event.progress? : Event → Option Nat
  | .progress rows => some rows
  | _ => none

def Cursor.log (c : Cursor) (config : Config) (n : Nat) : List Event :=
  (List.range n).flatMap fun m ↦ (c.after m).remarks config

structure Lifecycle (config : Config) (source : Traversal) (run : Cursor) : Prop where
  emitted (n : Nat) : (run.after n).emitted = (run.given.firstRows n).length
  within (n : Nat) : config.rowLimit.all ((run.after n).emitted ≤ ·)
  isRunning_iff (n : Nat) : (run.after n).isRunning ↔ ∀ m < n, isRow (run.given m)
  -- A poll reports what the enumeration reports at it, if it comes through to there, and then the remarks.
  events (n : Nat) : (run.after n).next.events =
    (if (run.after n).isRunning ∧ ¬ config.rowLimit.any (· ≤ (run.after n).emitted) then
      (source.later n).poll.events
    else []) ++ (run.after n).remarks config
  ended (n : Nat) : ¬ (run.after n).isRunning → (run.after n).next = ⟨[], none, run.after n⟩
  started (n steps : Nat) : .started steps ∉ (run.after n).remarks config
  failed_iff (n : Nat) (e : Error) : .failed e ∈ (run.after n).remarks config ↔ run.given n = some (.error e)
  finished_iff (n : Nat) (reason : Finish) (rows : Nat) :
    .finished reason rows ∈ (run.after n).remarks config ↔
      (∀ m < n, isRow (run.given m)) ∧ ¬ isRow (run.given n) ∧ rows = (run.after (n + 1)).emitted ∧
      reason = match run.given n with
        | some _ => .error
        | none => if config.rowLimit.any (· ≤ rows) then .limit else .exhausted
  finished_once (n : Nat) :
    (run.log config n).countP Event.isFinished = if ∀ m < n, isRow (run.given m) then 0 else 1
  -- The remainder of a progress interval is that of a division by a positive number.
  interval_pos : config.progressInterval.all (0 < ·)
  progress_iff (n rows : Nat) :
    .progress rows ∈ (run.after n).remarks config ↔
      isRow (run.given n) ∧ rows = (run.after (n + 1)).emitted ∧ config.progressInterval.any (rows % · == 0)
  progress_log (n : Nat) :
    (run.log config n).filterMap Event.progress? =
      config.progressInterval.elim [] fun every ↦
        (List.range ((run.after n).emitted / every)).map fun j ↦ (j + 1) * every

theorem multiples_succ (every rows : Nat) :
    (List.range ((rows + 1) / every)).map (fun j ↦ (j + 1) * every) =
      (List.range (rows / every)).map (fun j ↦ (j + 1) * every) ++
        if (rows + 1) % every == 0 then [rows + 1] else [] := by
  rw [Nat.succ_div]
  by_cases hdvd : every ∣ rows + 1
  · have hquotient : rows / every + 1 = (rows + 1) / every := by rw [Nat.succ_div, if_pos hdvd]
    have hmod : (rows + 1) % every = 0 := Nat.mod_eq_zero_of_dvd hdvd
    rw [if_pos hdvd, List.range_succ, List.map_append, List.map_singleton, hquotient,
      Nat.div_mul_cancel hdvd, hmod]
    rfl
  · have hmod : (rows + 1) % every ≠ 0 := fun h ↦ hdvd (Nat.dvd_of_mod_eq_zero h)
    simp [hdvd, hmod]

theorem mem_progress {interval : Option Nat} {rows : Nat} {e : Event} :
    e ∈ progress interval rows ↔ e = .progress rows ∧ interval.any (rows % · == 0) := by
  rw [progress]
  split
  · next h => simp [h]
  · next h => simp [h]

section

variable {limit interval : Option Nat} {emitted : Nat} {answer : Option Item}

theorem started_notMem_remarks (steps : Nat) :
    .started steps ∉ Traversal.remarks limit interval emitted answer := by
  rcases answer with _ | e | row <;> simp [Traversal.remarks, mem_progress]

theorem failed_mem_remarks {e : Error} :
    .failed e ∈ Traversal.remarks limit interval emitted answer ↔ answer = some (.error e) := by
  rcases answer with _ | e' | row
  · simp [Traversal.remarks]
  · simp [Traversal.remarks, @eq_comm _ e e']
  · simp [Traversal.remarks, mem_progress]

theorem finished_mem_remarks {reason : Finish} {rows : Nat} :
    .finished reason rows ∈ Traversal.remarks limit interval emitted answer ↔
      ¬ isRow answer ∧ rows = emitted ∧ reason = match answer with
        | some _ => .error
        | none => if limit.any (· ≤ rows) then .limit else .exhausted := by
  rcases answer with _ | e | row
  · rw [Traversal.remarks, List.mem_singleton, Event.finished.injEq, and_comm]
    constructor
    · rintro ⟨rfl, rfl⟩
      exact ⟨Bool.false_ne_true, rfl, rfl⟩
    · rintro ⟨-, rfl, rfl⟩
      exact ⟨rfl, rfl⟩
  · simp [Traversal.remarks, isRow, and_comm]
  · simp [Traversal.remarks, mem_progress, isRow]

theorem progress_mem_remarks {rows : Nat} :
    .progress rows ∈ Traversal.remarks limit interval emitted answer ↔
      isRow answer ∧ rows = emitted + 1 ∧ interval.any (rows % · == 0) := by
  rcases answer with _ | e | row
  · simp [Traversal.remarks, isRow]
  · simp [Traversal.remarks, isRow]
  · rw [Traversal.remarks, mem_progress, Event.progress.injEq]
    constructor
    · rintro ⟨rfl, hinterval⟩
      exact ⟨rfl, rfl, hinterval⟩
    · rintro ⟨-, rfl, hinterval⟩
      exact ⟨rfl, hinterval⟩

theorem countP_remarks :
    (Traversal.remarks limit interval emitted answer).countP Event.isFinished = if isRow answer then 0 else 1 := by
  rcases answer with _ | e | row
  · rfl
  · rfl
  · rw [Traversal.remarks, progress]
    split <;> rfl

theorem filterMap_remarks :
    (Traversal.remarks limit interval emitted answer).filterMap Event.progress? =
      if isRow answer then interval.elim [] fun every ↦ if (emitted + 1) % every == 0 then [emitted + 1] else []
      else [] := by
  rcases answer with _ | e | row
  · rfl
  · rfl
  · rw [Traversal.remarks, progress]
    cases interval with
    | none => rfl
    | some every =>
      have hrow : isRow (some (Except.ok row : Item)) := rfl
      rw [Option.any_some, if_pos hrow, Option.elim_some]
      split <;> rfl

end

namespace Cursor

variable {config : Config} {t : Traversal} {c : Cursor}

theorem log_succ (c : Cursor) (config : Config) (n : Nat) :
    c.log config (n + 1) = c.log config n ++ (c.after n).remarks config := by
  rw [log, log, List.range_succ, List.flatMap_append, List.flatMap_singleton]

namespace Live

variable (h : Live config t c)
include h

theorem isRunning_iff (n : Nat) : (c.after n).isRunning ↔ ∀ m < n, isRow (c.given m) := by
  have hafter := h.after n
  by_cases hrows : ∀ m < n, isRow (c.given m)
  · rw [if_pos hrows] at hafter
    exact iff_of_true hafter.isRunning hrows
  · rw [if_neg hrows] at hafter
    exact iff_of_false (fun hrunning ↦ Cursor.isRunning_iff.1 hrunning hafter) hrows

theorem next_ended {n : Nat} (hend : ¬ ∀ m < n, isRow (c.given m)) : (c.after n).next = ⟨[], none, c.after n⟩ := by
  have hafter := h.after n
  rw [if_neg hend] at hafter
  exact next_of_done hafter

theorem given_ended {n : Nat} (hend : ¬ ∀ m < n, isRow (c.given m)) : c.given n = none := by
  rw [given_after, h.next_ended hend]

theorem rows_before {n : Nat} {x : Item} (hx : c.given n = some x) : ∀ m < n, isRow (c.given m) := by
  refine Decidable.byContradiction fun hend ↦ ?_
  rw [h.given_ended hend] at hx
  cases hx

theorem within_after (n : Nat) : config.rowLimit.all ((c.after n).emitted ≤ ·) := by
  induction n with
  | zero => exact h.within
  | succ n ih =>
    by_cases hrow : isRow (c.given n)
    · obtain ⟨row, hitem⟩ := exists_of_isRow hrow
      have hlive := h.after (n + 1)
      rw [if_pos (Nat.forall_lt_succ_right.2 ⟨h.rows_before hitem, hrow⟩)] at hlive
      exact hlive.within
    · rw [emitted_after_succ, if_neg hrow]
      exact ih

theorem events_after (n : Nat) :
    (c.after n).next.events =
      (if (c.after n).isRunning ∧ ¬ config.rowLimit.any (· ≤ (c.after n).emitted) then
        (t.later n).poll.events
      else []) ++ (c.after n).remarks config := by
  have hafter := h.after n
  by_cases hrows : ∀ m < n, isRow (c.given m)
  · rw [if_pos hrows] at hafter
    rw [hafter.events]
    by_cases hlimit : config.rowLimit.any (· ≤ (c.after n).emitted)
    · rw [if_pos hlimit, if_neg fun h ↦ h.2 hlimit]
    · rw [if_neg hlimit, if_pos ⟨hafter.isRunning, hlimit⟩]
  · have hrunning : ¬ (c.after n).isRunning := mt (h.isRunning_iff n).1 hrows
    rw [h.next_ended hrows, remarks, if_neg hrunning, if_neg fun h ↦ hrunning h.1]
    rfl

theorem remarks_after (n : Nat) :
    (c.after n).remarks config =
      if ∀ m < n, isRow (c.given m) then
        Traversal.remarks config.rowLimit config.progressInterval (c.after n).emitted (c.given n)
      else [] := by
  rw [remarks, given_after]
  simp only [h.isRunning_iff n]

theorem started_notMem (n steps : Nat) : .started steps ∉ (c.after n).remarks config := by
  rw [h.remarks_after]
  split
  · exact started_notMem_remarks steps
  · exact List.not_mem_nil

theorem failed_iff (n : Nat) (e : Error) :
    .failed e ∈ (c.after n).remarks config ↔ c.given n = some (.error e) := by
  rw [h.remarks_after]
  split
  · exact failed_mem_remarks
  · next hend => simp [h.given_ended hend]

theorem finished_iff (n : Nat) (reason : Finish) (rows : Nat) :
    .finished reason rows ∈ (c.after n).remarks config ↔
      (∀ m < n, isRow (c.given m)) ∧ ¬ isRow (c.given n) ∧ rows = (c.after (n + 1)).emitted ∧
      reason = match c.given n with
        | some _ => .error
        | none => if config.rowLimit.any (· ≤ rows) then .limit else .exhausted := by
  rw [h.remarks_after, emitted_after_succ]
  by_cases hrows : ∀ m < n, isRow (c.given m)
  · rw [if_pos hrows, finished_mem_remarks]
    by_cases hrow : isRow (c.given n)
    · simp [hrow]
    · rw [if_neg hrow]
      exact (and_iff_right hrows).symm
  · simp [hrows]

theorem progress_iff (n rows : Nat) :
    .progress rows ∈ (c.after n).remarks config ↔
      isRow (c.given n) ∧ rows = (c.after (n + 1)).emitted ∧ config.progressInterval.any (rows % · == 0) := by
  rw [h.remarks_after, emitted_after_succ]
  split
  · rw [progress_mem_remarks]
    refine and_congr_right fun hrow ↦ ?_
    rw [if_pos hrow]
  · next hend =>
    rw [h.given_ended hend]
    simp [isRow]

theorem finished_once (n : Nat) :
    (c.log config n).countP Event.isFinished = if ∀ m < n, isRow (c.given m) then 0 else 1 := by
  induction n with
  | zero => simp [log]
  | succ n ih =>
    rw [log_succ, List.countP_append, ih, h.remarks_after]
    simp only [Nat.forall_lt_succ_right]
    by_cases hrows : ∀ m < n, isRow (c.given m)
    · rw [if_pos hrows, if_pos hrows, countP_remarks, Nat.zero_add]
      simp only [and_iff_right hrows]
    · rw [if_neg hrows, if_neg hrows, if_neg fun h ↦ hrows h.1]
      rfl

theorem progress_remarks (n : Nat) :
    ((c.after n).remarks config).filterMap Event.progress? =
      if isRow (c.given n) then
        config.progressInterval.elim [] fun every ↦
          if ((c.after n).emitted + 1) % every == 0 then [(c.after n).emitted + 1] else []
      else [] := by
  rw [h.remarks_after]
  split
  · exact filterMap_remarks
  · next hend =>
    rw [h.given_ended hend]
    rfl

theorem progress_log (hemitted : c.emitted = 0) (n : Nat) :
    (c.log config n).filterMap Event.progress? =
      config.progressInterval.elim [] fun every ↦
        (List.range ((c.after n).emitted / every)).map fun j ↦ (j + 1) * every := by
  induction n with
  | zero =>
    rw [Cursor.after, hemitted]
    cases config.progressInterval <;> simp [log]
  | succ n ih =>
    rw [log_succ, List.filterMap_append, ih, h.progress_remarks, emitted_after_succ]
    by_cases hrow : isRow (c.given n)
    · rw [if_pos hrow, if_pos hrow]
      cases config.progressInterval with
      | none => rfl
      | some every => exact (multiples_succ every _).symm
    · rw [if_neg hrow, if_neg hrow, List.append_nil]

end Live

end Cursor

theorem Runner.interval_pos (r : Runner) : r.config.progressInterval.all (0 < ·) := by
  have hvalid : r.config.progressInterval ≠ some 0 := r.valid
  cases hinterval : r.config.progressInterval with
  | none => rfl
  | some every =>
    have hevery : every ≠ 0 := fun h ↦ hvalid (h ▸ hinterval)
    exact decide_eq_true (Nat.pos_of_ne_zero hevery)

/-- A run counts its rows up to its limit, runs until the first poll that gives anything else, says so once, and
is at rest after that. Without steps it is at rest from the start. -/
theorem run_lifecycle [Operators Ω] (r : Runner) (step : Step Ω) (rest : List (Step Ω)) :
    (r.start (step :: rest)).events = [.started (rest.length + 1)] ∧
    Lifecycle r.config (enumerate ∅ ∅ (step :: rest)) (r.start (step :: rest)).value ∧
    (r.start ([] : List (Step Ω))).events = [] ∧
    ∀ n, let run := (r.start ([] : List (Step Ω))).value.after n
      run.isRunning = false ∧ run.emitted = 0 ∧ run.next = ⟨[], none, run⟩ := by
  have hlive : (r.start (step :: rest)).value.Live r.config (enumerate ∅ ∅ (step :: rest)) := by
    refine ⟨.metered _ 0, ?_⟩
    cases r.config.rowLimit with
    | none => rfl
    | some limit => exact decide_eq_true (Nat.zero_le limit)
  refine ⟨rfl, ?_, rfl, fun n ↦ ?_⟩
  · exact {
      emitted := fun n ↦ (Cursor.emitted_after _ n).trans (Nat.zero_add _)
      within := hlive.within_after
      isRunning_iff := hlive.isRunning_iff
      events := hlive.events_after
      ended := fun n hend ↦ hlive.next_ended (mt (hlive.isRunning_iff n).2 hend)
      started := hlive.started_notMem
      failed_iff := hlive.failed_iff
      finished_iff := hlive.finished_iff
      finished_once := hlive.finished_once
      interval_pos := r.interval_pos
      progress_iff := hlive.progress_iff
      progress_log := hlive.progress_log rfl }
  · intro run
    have hrun : run = .empty := Cursor.after_of_done rfl n
    rw [hrun]
    exact ⟨rfl, rfl, Cursor.next_of_done rfl⟩

end RowProduct
