import RowProduct.Traversal

namespace RowProduct

abbrev Feed := Nat → Option Item

namespace Feed

def isRow : Option Item → Bool
  | some (.ok _) => true
  | _ => false

theorem exists_of_isRow {x : Option Item} (h : isRow x) : ∃ row, x = some (.ok row) := by
  unfold isRow at h
  split at h
  · next row => exact ⟨row, rfl⟩
  · cases h

def nothing : Feed := fun _ ↦ none

def once (x : Item) : Feed
  | 0 => some x
  | _ + 1 => none

/-- A feed up to and including its first error, or up to its first none. -/
def untilEnd (s : Feed) : Feed := fun n ↦ if ∀ m < n, isRow (s m) then s n else none

/-- Goes on with `later` at the first none; an error is the end of both. -/
def follow (s later : Feed) : Feed
  | 0 => match s 0 with
    | none => later 0
    | x => x
  | n + 1 => match s 0 with
    | some (.ok _) => follow (fun m ↦ s (m + 1)) later n
    | some (.error _) => none
    | none => later (n + 1)

theorem follow_row {s : Feed} {row : Row} (h : s 0 = some (.ok row)) (later : Feed) (n : Nat) :
    follow s later (n + 1) = follow (fun m ↦ s (m + 1)) later n := by
  rw [follow, h]

theorem follow_error {s : Feed} {e : Error} (h : s 0 = some (.error e)) (later : Feed) :
    follow s later = once (.error e) := by
  funext n
  cases n <;> simp [follow, once, h]

theorem follow_none {s : Feed} (h : s 0 = none) (later : Feed) : follow s later = later := by
  funext n
  cases n <;> simp [follow, h]

theorem nothing_follow (later : Feed) : follow nothing later = later := follow_none rfl later

theorem once_error_follow (e : Error) (later : Feed) : follow (once (.error e)) later = once (.error e) :=
  follow_error rfl later

theorem follow_rows {s : Feed} (h : ∀ n, isRow (s n)) (later : Feed) : follow s later = s := by
  funext n
  induction n generalizing s with
  | zero =>
    have h0 := h 0
    cases hs : s 0 with
    | none => simp [isRow, hs] at h0
    | some x => simp only [follow, hs]
  | succ n ih =>
    obtain ⟨row, hrow⟩ := exists_of_isRow (h 0)
    rw [follow_row hrow, ih fun m ↦ h (m + 1)]

theorem follow_assoc (r s t : Feed) : follow (follow r s) t = follow r (follow s t) := by
  funext n
  induction n generalizing r with
  | zero =>
    cases hr : r 0 with
    | none => rw [follow_none hr, follow_none hr]
    | some x => simp only [follow, hr]
  | succ n ih =>
    cases hr : r 0 with
    | none => rw [follow_none hr, follow_none hr]
    | some x =>
      cases x with
      | error e =>
        rw [follow_error hr, follow_error hr, once_error_follow]
      | ok row =>
        have h : follow r s 0 = some (.ok row) := by simp only [follow, hr]
        have hs : (fun m ↦ follow r s (m + 1)) = follow (fun m ↦ r (m + 1)) s :=
          funext fun m ↦ follow_row hr s m
        rw [follow_row h, follow_row hr, hs, ih]

theorem follow_nothing (s : Feed) : follow s nothing = untilEnd s := by
  funext n
  induction n generalizing s with
  | zero => cases hs : s 0 <;> simp [follow, untilEnd, nothing, hs]
  | succ n ih =>
    cases hs : s 0 with
    | none =>
      have hn : ¬ ∀ m < n + 1, isRow (s m) := fun h ↦ by simpa [isRow, hs] using h 0 n.succ_pos
      rw [follow_none hs, untilEnd, if_neg hn, nothing]
    | some x =>
      cases x with
      | error e =>
        have hn : ¬ ∀ m < n + 1, isRow (s m) := fun h ↦ by simpa [isRow, hs] using h 0 n.succ_pos
        rw [follow_error hs, untilEnd, if_neg hn, once]
      | ok row =>
        have hrow : isRow (s 0) := by rw [hs]; rfl
        rw [follow_row hs, ih, untilEnd, untilEnd]
        simp only [Nat.forall_lt_succ_left, hrow, true_and]

theorem untilEnd_eq_none {s : Feed} {m n : Nat} (hmn : m < n) (hm : ¬ isRow (untilEnd s m)) :
    untilEnd s n = none := by
  refine if_neg fun h ↦ hm ?_
  rw [untilEnd, if_pos fun k hk ↦ h k (Nat.lt_trans hk hmn)]
  exact h m hmn

/-- Some rows and then an error or, without one, a none. -/
def EndsAfter (e : Option Error) : List Row → Feed → Prop
  | [], s => s 0 = e.map .error
  | row :: rows, s => s 0 = some (.ok row) ∧ EndsAfter e rows fun n ↦ s (n + 1)

theorem endsAfter_iff {e : Option Error} {rows : List Row} {s : Feed} :
    EndsAfter e rows s ↔ (∀ n < rows.length, s n = rows[n]?.map .ok) ∧ s rows.length = e.map .error := by
  induction rows generalizing s with
  | nil => simp [EndsAfter]
  | cons row rows ih =>
    rw [EndsAfter, ih, List.length_cons, Nat.forall_lt_succ_left, and_assoc]
    rfl

theorem EndsAfter.congr {e : Option Error} {rows : List Row} {s s' : Feed} (h : EndsAfter e rows s)
    (hs : ∀ n ≤ rows.length, s' n = s n) : EndsAfter e rows s' := by
  obtain ⟨hrows, hend⟩ := endsAfter_iff.1 h
  refine endsAfter_iff.2 ⟨fun n hn ↦ ?_, ?_⟩
  · rw [hs n (Nat.le_of_lt hn), hrows n hn]
  · rw [hs _ (Nat.le_refl _), hend]

theorem exists_endsAfter {s : Feed} {n : Nat} (h : ¬ isRow (s n)) :
    ∃ e rows, rows.length ≤ n ∧ EndsAfter e rows s := by
  induction n generalizing s with
  | zero =>
    cases hs : s 0 with
    | none => exact ⟨none, [], Nat.le_refl _, hs⟩
    | some x =>
      cases x with
      | error e => exact ⟨some e, [], Nat.le_refl _, hs⟩
      | ok row => simp [hs, isRow] at h
  | succ n ih =>
    cases hs : s 0 with
    | none => exact ⟨none, [], Nat.zero_le _, hs⟩
    | some x =>
      cases x with
      | error e => exact ⟨some e, [], Nat.zero_le _, hs⟩
      | ok row =>
        obtain ⟨e, rows, hlength, hrows⟩ := @ih (fun m ↦ s (m + 1)) h
        exact ⟨e, row :: rows, Nat.succ_le_succ hlength, hs, hrows⟩

theorem EndsAfter.not_isRow {e : Option Error} {rows : List Row} {s : Feed} (h : EndsAfter e rows s) :
    ¬ isRow (s rows.length) := by
  induction rows generalizing s with
  | nil =>
    have hs : s 0 = e.map .error := h
    cases e <;> simp [hs, isRow]
  | cons row rows ih => exact ih h.2

end Feed

namespace Traversal

open Feed

def given (t : Traversal) : Feed
  | 0 => t.poll.value.1
  | n + 1 => t.poll.value.2.given n

def reported (t : Traversal) : Nat → List Event
  | 0 => []
  | n + 1 => t.poll.events ++ t.poll.value.2.reported n

@[simp]
theorem given_done : done.given = nothing := by
  funext n
  induction n with
  | zero => rfl
  | succ n ih => exact ih

@[simp]
theorem given_item_succ (x : Item) (next : Unit → Traversal) (n : Nat) :
    (item x next).given (n + 1) = (next ()).given n := rfl

@[simp]
theorem given_fail (e : Error) : (fail e).given = once (.error e) := by
  funext n
  cases n with
  | zero => rfl
  | succ n => exact congrFun given_done n

@[simp]
theorem given_report (events : List Event) (next : Unit → Traversal) :
    (report events next).given = (next ()).given := by
  funext n
  cases n <;> simp only [given, poll_report]

theorem given_endless (rows : Nat → Traced Row) (start n : Nat) :
    (endless rows start).given n = some (.ok (rows (start + n)).value) := by
  induction n generalizing start with
  | zero => rfl
  | succ n ih =>
    have h := ih (start + 1)
    rwa [Nat.add_right_comm] at h

theorem isRow_given_endless (rows : Nat → Traced Row) (start n : Nat) :
    isRow ((endless rows start).given n) := by
  rw [given_endless]
  rfl

@[simp]
theorem reported_done (n : Nat) : done.reported n = [] := by
  induction n with
  | zero => rfl
  | succ n ih => exact ih

@[simp]
theorem reported_item_succ (x : Item) (next : Unit → Traversal) (n : Nat) :
    (item x next).reported (n + 1) = (next ()).reported n := rfl

theorem reported_endless (rows : Nat → Traced Row) (start n : Nat) :
    (endless rows start).reported n = (List.range n).flatMap fun m ↦ (rows (start + m)).events := by
  induction n generalizing start with
  | zero => rfl
  | succ n ih =>
    have h := ih (start + 1)
    simp only [Nat.add_right_comm] at h
    rw [List.range_succ_eq_map, List.flatMap_cons, List.flatMap_map]
    exact congrArg ((rows start).events ++ ·) h

@[simp]
theorem reported_fail (e : Error) (n : Nat) : (fail e).reported n = [] := by
  cases n with
  | zero => rfl
  | succ n => exact reported_done n

@[simp]
theorem reported_report_succ (events : List Event) (next : Unit → Traversal) (n : Nat) :
    (report events next).reported (n + 1) = events ++ (next ()).reported (n + 1) := by
  simp only [reported, poll_report, List.append_assoc]

@[simp]
theorem given_perform {α : Type} (action : Unit → Traced α) (use : α → Traversal) :
    (perform action use).given = (use (action ()).value).given := by
  simp only [perform, given_report]

@[simp]
theorem reported_perform_succ {α : Type} (action : Unit → Traced α) (use : α → Traversal) (n : Nat) :
    (perform action use).reported (n + 1) = (action ()).events ++ (use (action ()).value).reported (n + 1) := by
  simp only [perform, reported_report_succ, List.nil_append]

theorem given_append (t : Traversal) (after : Unit → Traversal) :
    (t.append after).given = follow t.given (after ()).given := by
  induction t with
  | done => exact (follow_none rfl _).symm
  | item x next ih =>
    cases x with
    | error e => rw [follow_error rfl]; exact given_fail e
    | ok row =>
      funext n
      cases n with
      | zero => rfl
      | succ n => rw [follow_row rfl]; exact congrFun (ih ()) n
  | pause next ih => exact (follow_none rfl _).symm
  | report events next ih => simpa only [append, given_report] using ih ()
  | endless rows start => exact (follow_rows (isRow_given_endless rows start) _).symm

theorem given_gather {e : Option Error} {rows : List Row} {t : Traversal} (h : EndsAfter e rows t.given)
    (use : List Row → Traversal) (seen : List Row) :
    (t.gather use seen).given = e.elim (use (seen.reverse ++ rows)).given fun e ↦ once (.error e) := by
  induction t generalizing rows seen with
  | done | pause next ih =>
    cases rows with
    | nil =>
      cases e with
      | none => simp [gather]
      | some e => cases h
    | cons row rows => cases h.1
  | item x next ih =>
    cases x with
    | error e' =>
      cases rows with
      | nil =>
        cases e with
        | none => cases h
        | some e => cases h; exact given_fail e'
      | cons row rows => cases h.1
    | ok row' =>
      cases rows with
      | nil => cases e <;> cases h
      | cons row rows =>
        obtain ⟨hrow, hrows⟩ := h
        cases hrow
        rw [gather, given_report, ih () hrows, List.reverse_cons, List.append_assoc, List.singleton_append]
  | report events next ih =>
    rw [given_report] at h
    rw [gather, given_report]
    exact ih () h seen
  | endless rows' start => exact absurd (isRow_given_endless rows' start _) h.not_isRow

theorem collectFrom_value {e : Option Error} {rows : List Row} {t : Traversal} (h : EndsAfter e rows t.given)
    (events : List Event) (seen : List Row) :
    (t.collectFrom events seen).value = e.elim (.ok (seen.reverse ++ rows)) .error := by
  induction t generalizing events rows seen with
  | done | pause next ih =>
    cases rows with
    | nil =>
      cases e with
      | none => simp [collectFrom]
      | some e => cases h
    | cons row rows => cases h.1
  | item x next ih =>
    cases x with
    | error e' =>
      cases rows with
      | nil =>
        cases e with
        | none => cases h
        | some e => cases h; rfl
      | cons row rows => cases h.1
    | ok row' =>
      cases rows with
      | nil => cases e <;> cases h
      | cons row rows =>
        obtain ⟨hrow, hrows⟩ := h
        cases hrow
        rw [collectFrom, ih () hrows, List.reverse_cons, List.append_assoc, List.singleton_append]
  | report events' next ih =>
    rw [given_report] at h
    exact ih () h _ seen
  | endless rows' start => exact absurd (isRow_given_endless rows' start _) h.not_isRow

theorem collect_value {e : Option Error} {rows : List Row} {t : Traversal} (h : EndsAfter e rows t.given) :
    t.collect.value = e.elim (.ok rows) .error :=
  collectFrom_value h [] []

theorem append_assoc (t : Traversal) (second third : Unit → Traversal) :
    (t.append second).append third = t.append fun _ ↦ (second ()).append third := by
  induction t with
  | done => rfl
  | item x next ih =>
    cases x with
    | error e => rfl
    | ok row => exact congrArg (item (.ok row)) (funext fun _ ↦ ih ())
  | pause next ih => rfl
  | report events next ih => exact congrArg (report events) (funext fun _ ↦ ih ())
  | endless rows start => rfl

def Answers (t : Traversal) (s : Nat → Traced (Option Item)) : Prop :=
  ∀ n, (∀ m < n, isRow (s m).value) →
    t.given n = (s n).value ∧ t.reported (n + 1) = (List.range (n + 1)).flatMap fun m ↦ (s m).events

theorem exists_answers_of_end {s : Nat → Traced (Option Item)} (h : ¬ isRow (s 0).value) :
    ∃ t : Traversal, t.Answers s := by
  have hfirst (t : Traversal) (ht : t.given 0 = (s 0).value) (hr : t.reported 1 = []) :
      (report (s 0).events fun _ ↦ t).Answers s := by
    intro n hn
    cases n with
    | zero => simp [ht, hr]
    | succ n => exact absurd (hn 0 n.succ_pos) h
  cases hs : (s 0).value with
  | none => exact ⟨_, hfirst done (by simp [hs, nothing]) (by simp)⟩
  | some x =>
    cases x with
    | error e => exact ⟨_, hfirst (fail e) (by simp [hs, once]) (by simp)⟩
    | ok row => simp [hs, isRow] at h

theorem Answers.cons {s : Nat → Traced (Option Item)} {row : Row} (hs : (s 0).value = some (.ok row))
    {t : Traversal} (ht : t.Answers fun n ↦ s (n + 1)) :
    (report (s 0).events fun _ ↦ item (.ok row) fun _ ↦ t).Answers s := by
  intro n hn
  cases n with
  | zero => exact ⟨by rw [given_report, hs]; rfl, by rw [reported_report_succ]; rfl⟩
  | succ n =>
    obtain ⟨hgiven, hreported⟩ := ht n fun m hm ↦ hn (m + 1) (Nat.succ_lt_succ hm)
    rw [given_report, given_item_succ, hgiven, reported_report_succ, reported_item_succ, hreported,
      List.range_succ_eq_map (n := n + 1), List.flatMap_cons, List.flatMap_map]
    exact ⟨rfl, rfl⟩

/-- Any answers to polls at all are those of a traversal. -/
theorem exists_answers (s : Nat → Traced (Option Item)) : ∃ t : Traversal, t.Answers s := by
  by_cases h : ∀ n, isRow (s n).value
  · have hrows (n : Nat) : ∃ row, (s n).value = some (.ok row) := exists_of_isRow (h n)
    refine ⟨endless (fun n ↦ ⟨(s n).events, (hrows n).choose⟩) 0, fun n _ ↦ ⟨?_, ?_⟩⟩
    · rw [given_endless, Nat.zero_add, ← (hrows n).choose_spec]
    · simp only [reported_endless, Nat.zero_add]
  · rw [Classical.not_forall] at h
    obtain ⟨k, hk⟩ := h
    induction k generalizing s with
    | zero => exact exists_answers_of_end hk
    | succ k ih =>
      by_cases h : isRow (s 0).value
      · obtain ⟨row, hrow⟩ := exists_of_isRow h
        obtain ⟨t, ht⟩ := ih (fun n ↦ s (n + 1)) hk
        exact ⟨_, ht.cons hrow⟩
      · exact exists_answers_of_end h

end Traversal

end RowProduct
