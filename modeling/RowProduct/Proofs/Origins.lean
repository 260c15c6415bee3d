import RowProduct.Proofs.Malformed

namespace RowProduct

open Traversal Visit

inductive Step.OccursIn (step : Step Empty) : List (Step Empty) → Prop
  | here {steps : List (Step Empty)} : step ∈ steps → OccursIn step steps
  | group {column : String} {nested steps : List (Step Empty)} :
      .group column nested ∈ steps → OccursIn step nested → OccursIn step steps

def Step.entries? : Step Empty → Option (List Value)
  | .dataset entries | .merge entries _ => some entries
  | _ => none

def Step.ownColumns : Step Empty → List Column
  | .columns block => block
  | .column c => [c]
  | _ => []

def FirstNonObject (entries : List Value) (index : Nat) (v : Value) : Prop :=
  ∃ (before : List Fields) (later : List Value), entries = before.map .object ++ v :: later ∧
    before.length = index ∧ ∀ fields, v ≠ .object fields

/-- The error is in the text of the program, and this is reported when the program comes there. -/
def Origin (steps : List (Step Empty)) (cause : List Event) : Error → Prop
  | .unknownStep text => ∃ step row scope remaining, Step.OccursIn step steps ∧ step.malformed? = some text ∧
      cause = [.dispatch row scope step.kind remaining]
  | .invalidEntry index text => ∃ step entries v, Step.OccursIn step steps ∧ step.entries? = some entries ∧
      FirstNonObject entries index v ∧ v.text = text ∧ cause = [.rejected index]
  | .columnFailed name reason => ∃ step f row scope remaining, Step.OccursIn step steps ∧
      ⟨name, .computed f⟩ ∈ step.ownColumns ∧ (f scope).value = .error reason ∧
      cause = .dispatch row scope "col" remaining :: (f scope).events
  | .invalidConfig _ | .endless => False

theorem Step.OccursIn.mono {step : Step Empty} {xs ys : List (Step Empty)} (h : OccursIn step xs)
    (hsteps : xs ⊆ ys) : OccursIn step ys := by
  cases h with
  | here hstep => exact .here (hsteps hstep)
  | group hgroup hnested => exact .group (hsteps hgroup) hnested

theorem Origin.mono {xs ys : List (Step Empty)} (hsteps : ∀ step, Step.OccursIn step xs → Step.OccursIn step ys)
    {cause : List Event} {e : Error} (h : Origin xs cause e) : Origin ys cause e := by
  cases e with
  | unknownStep text =>
    obtain ⟨step, row, scope, remaining, hstep, hrest⟩ := h
    exact ⟨step, row, scope, remaining, hsteps step hstep, hrest⟩
  | invalidEntry index text =>
    obtain ⟨step, entries, v, hstep, hrest⟩ := h
    exact ⟨step, entries, v, hsteps step hstep, hrest⟩
  | columnFailed name reason =>
    obtain ⟨step, f, row, scope, remaining, hstep, hrest⟩ := h
    exact ⟨step, f, row, scope, remaining, hsteps step hstep, hrest⟩
  | invalidConfig reason => exact h
  | endless => exact h

namespace Visit

/-- The first error, with the events since the outcome before it. -/
def failure? (seen : List Event) : List Visit → Option (List Event × Error)
  | [] => none
  | .event e :: vs => failure? (seen ++ [e]) vs
  | .outcome (.ok _) :: vs => failure? [] vs
  | .outcome (.error e) :: _ => some (seen, e)

variable {seen last : List Event} {e : Error} {vs ws : List Visit}

theorem failure_events (seen events : List Event) (vs : List Visit) :
    failure? seen (events.map event ++ vs) = failure? (seen ++ events) vs := by
  induction events generalizing seen with
  | nil => rw [List.append_nil]; rfl
  | cons e events ih =>
    have hcons : failure? seen ((e :: events).map event ++ vs) =
        failure? (seen ++ [e]) (events.map event ++ vs) := rfl
    rw [hcons, ih, List.append_assoc, List.singleton_append]

theorem failure_drop {before seen : List Event} (h : failure? (before ++ seen) vs = some (last, e)) :
    ∃ last', failure? seen vs = some (last', e) ∧ last' <:+ last := by
  induction vs generalizing seen with
  | nil => cases h
  | cons v vs ih =>
    rcases v with e' | e' | b
    · rw [failure?, List.append_assoc] at h
      exact ih h
    · cases h
      exact ⟨seen, rfl, List.suffix_append before seen⟩
    · exact ⟨last, h, List.suffix_refl last⟩

theorem failure_append (h : failure? seen (vs ++ ws) = some (last, e)) :
    failure? seen vs = some (last, e) ∨ ∃ last', failure? [] ws = some (last', e) ∧ last' <:+ last := by
  induction vs generalizing seen with
  | nil =>
    rw [List.nil_append, ← List.append_nil seen] at h
    exact .inr (failure_drop h)
  | cons v vs ih =>
    rcases v with e' | e' | b
    · exact ih h
    · exact .inl h
    · exact ih h

theorem failure_andThen {f : Row → Scope → List Visit} (h : failure? seen (andThen vs f) = some (last, e)) :
    (∃ last', failure? seen vs = some (last', e) ∧ last' <:+ last) ∨
      ∃ row scope last', failure? [] (f row scope) = some (last', e) ∧ last' <:+ last := by
  induction vs generalizing seen last with
  | nil => cases h
  | cons v vs ih =>
    rcases v with e' | e' | b
    · exact ih h
    · cases h
      exact .inl ⟨seen, rfl, List.suffix_refl seen⟩
    · have h : failure? seen (f b.1 b.2 ++ andThen vs f) = some (last, e) := h
      rcases failure_append h with h | ⟨last₁, h, hlast₁⟩
      · rw [← List.append_nil seen] at h
        exact .inr ⟨b.1, b.2, failure_drop h⟩
      · rcases ih h with ⟨last₂, h, hlast₂⟩ | ⟨row, scope, last₂, h, hlast₂⟩
        · exact .inl ⟨last₂, h, hlast₂.trans hlast₁⟩
        · exact .inr ⟨row, scope, last₂, h, hlast₂.trans hlast₁⟩

theorem failure_gathered {use : List Row → List Visit} (huse : ∀ rows seen, failure? seen (use rows) = none)
    {seen : List Event} (h : failure? seen (gathered use vs) = some (last, e)) :
    ∃ last', failure? seen vs = some (last', e) ∧ last' <:+ last := by
  induction vs generalizing seen use with
  | nil =>
    rw [gathered, huse] at h
    cases h
  | cons v vs ih =>
    rcases v with e' | e' | b
    · exact ih huse h
    · cases h
      exact ⟨last, rfl, List.suffix_refl last⟩
    · obtain ⟨last₁, h, hlast₁⟩ := ih (fun rows ↦ huse (b.1 :: rows)) h
      rw [← List.append_nil seen] at h
      obtain ⟨last₂, h, hlast₂⟩ := failure_drop h
      exact ⟨last₂, h, hlast₂.trans hlast₁⟩

theorem exists_failure {n : Nat} (h : (items (upTo isError vs))[n]? = some (.error e)) (seen : List Event) :
    ∃ last, failure? seen vs = some (last, e) ∧ last <:+ seen ++ eventsBefore (n + 1) (upTo isError vs) := by
  induction vs generalizing n seen with
  | nil => cases h
  | cons v vs ih =>
    rcases v with e' | e' | b
    · obtain ⟨last, hlast, hsuffix⟩ := ih h (seen ++ [e'])
      rw [List.append_assoc] at hsuffix
      exact ⟨last, hlast, hsuffix⟩
    · cases n with
      | zero =>
        cases h
        have hseen : seen ++ eventsBefore 1 (upTo isError (.outcome (.error e) :: vs)) = seen := by
          rw [eventsBefore_one, List.append_nil]
        exact ⟨seen, rfl, [], hseen.symm⟩
      | succ n => cases h
    · cases n with
      | zero => cases h
      | succ n =>
        obtain ⟨last, hlast, hsuffix⟩ := ih h []
        exact ⟨last, hlast, hsuffix.trans (List.suffix_append seen _)⟩

theorem failure_oks (seen : List Event) (branches : List (Row × Scope)) :
    failure? seen ((branches.map .ok).map outcome) = none := by
  induction branches generalizing seen with
  | nil => rfl
  | cons b branches ih => exact ih []

end Visit

def Explained (steps : List (Step Empty)) (seen : List Event) (vs : List Visit) : Prop :=
  ∀ last e, failure? seen vs = some (last, e) → ∃ cause, cause <:+ last ∧ Origin steps cause e

namespace Explained

variable {steps : List (Step Empty)} {seen : List Event} {vs ws : List Visit}

theorem of_none (h : failure? seen vs = none) : Explained steps seen vs := by
  intro last e he
  cases h.symm.trans he

theorem mono {xs : List (Step Empty)} (h : Explained xs seen vs)
    (hsteps : ∀ step, Step.OccursIn step xs → Step.OccursIn step steps) : Explained steps seen vs := by
  intro last e he
  obtain ⟨cause, hcause, horigin⟩ := h last e he
  exact ⟨cause, hcause, horigin.mono hsteps⟩

theorem events {events : List Event} (h : Explained steps (seen ++ events) vs) :
    Explained steps seen (events.map event ++ vs) := by
  intro last e he
  rw [failure_events] at he
  exact h last e he

theorem event {e : Event} (h : Explained steps (seen ++ [e]) vs) : Explained steps seen (.event e :: vs) := h

theorem behind (h : Explained steps seen vs) (before : List Event) : Explained steps (before ++ seen) vs := by
  intro last e he
  obtain ⟨last', he, hlast⟩ := failure_drop he
  obtain ⟨cause, hcause, horigin⟩ := h last' e he
  exact ⟨cause, hcause.trans hlast, horigin⟩

theorem append (hvs : Explained steps seen vs) (hws : Explained steps [] ws) :
    Explained steps seen (vs ++ ws) := by
  intro last e he
  rcases failure_append he with he | ⟨last', he, hlast⟩
  · exact hvs last e he
  · obtain ⟨cause, hcause, horigin⟩ := hws last' e he
    exact ⟨cause, hcause.trans hlast, horigin⟩

theorem andThen {f : Row → Scope → List Visit} (hvs : Explained steps seen vs)
    (hf : ∀ row scope, Explained steps [] (f row scope)) : Explained steps seen (Visit.andThen vs f) := by
  intro last e he
  rcases failure_andThen he with ⟨last', he, hlast⟩ | ⟨row, scope, last', he, hlast⟩
  · obtain ⟨cause, hcause, horigin⟩ := hvs last' e he
    exact ⟨cause, hcause.trans hlast, horigin⟩
  · obtain ⟨cause, hcause, horigin⟩ := hf row scope last' e he
    exact ⟨cause, hcause.trans hlast, horigin⟩

theorem gathered {use : List Row → List Visit} (huse : ∀ rows seen, failure? seen (use rows) = none)
    (hvs : Explained steps seen vs) : Explained steps seen (Visit.gathered use vs) := by
  intro last e he
  obtain ⟨last', he, hlast⟩ := failure_gathered huse he
  obtain ⟨cause, hcause, horigin⟩ := hvs last' e he
  exact ⟨cause, hcause.trans hlast, horigin⟩

end Explained

theorem Column.resolve_error {c : Column} {scope : Scope} {e : Error} (h : (c.resolve scope).value = .error e) :
    ∃ f reason, c.source = .computed f ∧ (f scope).value = .error reason ∧
      (c.resolve scope).events = (f scope).events ∧ e = .columnFailed c.name reason := by
  rcases c with ⟨name, vs | f⟩
  · cases h
  · cases hf : (f scope).value with
    | ok v => simp [resolve, hf, bind, pure] at h
    | error reason =>
      simp only [resolve, hf, bind, pure] at h ⊢
      cases h
      exact ⟨f, reason, rfl, hf, List.append_nil _, rfl⟩

section

variable {steps : List (Step Empty)} {step : Step Empty} (hstep : Step.OccursIn step steps)
include hstep

theorem explained_malformed {text : String} (hmalformed : step.malformed? = some text) (row : Row) (scope : Scope)
    (remaining : Nat) :
    Explained steps [.dispatch row scope step.kind remaining] [.outcome (.error (.unknownStep text))] := by
  intro last e he
  cases he
  exact ⟨_, List.suffix_refl _, step, row, scope, remaining, hstep, hmalformed, rfl⟩

theorem Column.explained_visits {c : Column} (hc : c ∈ step.ownColumns) (row : Row) (scope : Scope)
    (remaining : Nat) : Explained steps [.dispatch row scope "col" remaining] (c.visits row scope) := by
  refine .events ?_
  cases hvalue : (c.resolve scope).value with
  | ok values =>
    have houtcomes : c.outcomes row scope =
        (values.map fun v ↦ (row.insert c.name v, scope.insert c.name v)).map .ok := by
      rw [Column.outcomes, hvalue, List.map_map]
      rfl
    rw [houtcomes]
    exact .of_none (failure_oks _ _)
  | error e =>
    have houtcomes : c.outcomes row scope = [.error e] := by rw [Column.outcomes, hvalue]
    obtain ⟨f, reason, hsource, hf, hevents, rfl⟩ := Column.resolve_error hvalue
    obtain ⟨name, source⟩ := c
    subst hsource
    intro last e he
    rw [houtcomes] at he
    cases he
    exact ⟨_, List.suffix_refl _, step, f, row, scope, remaining, hstep, hc, hf, by rw [hevents]; rfl⟩

theorem ColumnBlock.explained_visits (remaining : Nat) {block : ColumnBlock} (hblock : block ⊆ step.ownColumns)
    (seen : List Event) (row : Row) (scope : Scope) :
    Explained steps seen (ColumnBlock.visits remaining block row scope) := by
  induction block generalizing seen row scope with
  | nil => exact .of_none rfl
  | cons c block ih =>
    obtain ⟨hc, hblock⟩ := List.cons_subset.mp hblock
    have hcolumn : Explained steps (seen ++ [.dispatch row scope "col" (block.length + remaining)])
        (c.visits row scope) := (Column.explained_visits hstep hc row scope _).behind seen
    exact .event (hcolumn.andThen (ih hblock []))

theorem explained_mergeVisits (test : Option EntryTest) (row : Row) (scope : Scope) (before : List Fields)
    {entries : List Value} (hentries : step.entries? = some (before.map .object ++ entries)) (seen : List Event) :
    Explained steps seen ((entries.zipIdx before.length).flatMap (entryVisits test row scope)) := by
  induction entries generalizing before seen with
  | nil => exact .of_none rfl
  | cons v entries ih =>
    rw [List.zipIdx_cons, List.flatMap_cons]
    cases v with
    | object fields =>
      have hlater : Explained steps [] ((entries.zipIdx (before.length + 1)).flatMap (entryVisits test row scope)) := by
        have h := ih (before ++ [fields]) (by rw [hentries]; simp) []
        rwa [List.length_append] at h
      refine .append (.events (.of_none ?_)) hlater
      rw [entryOutcomes]
      split <;> rfl
    | _ =>
      intro last e he
      cases he
      exact ⟨_, List.suffix_append seen [.rejected before.length], step, _, _, hstep, hentries,
        ⟨before, entries, rfl, rfl, by intro fields h; cases h⟩, rfl, rfl⟩

end

mutual

theorem Step.explained_visits (remaining : Nat) :
    ∀ (step : Step Empty) (row : Row) (scope : Scope),
      Explained [step] [.dispatch row scope step.kind remaining] (step.visits remaining row scope)
  | .columns [], row, scope => explained_malformed (.here List.mem_cons_self) rfl row scope remaining
  | .columns (c :: block), row, scope =>
    ColumnBlock.explained_visits (.here List.mem_cons_self) remaining (List.Subset.refl _) _ row scope
  | .dataset entries, row, scope =>
    .event (explained_mergeVisits (.here List.mem_cons_self) none row scope [] rfl _)
  | .unrecognized v, row, scope => explained_malformed (.here List.mem_cons_self) rfl row scope remaining
  | .column c, row, scope =>
    Column.explained_visits (.here List.mem_cons_self) List.mem_cons_self row scope remaining
  | .merge entries test, row, scope =>
    explained_mergeVisits (.here List.mem_cons_self) test row scope [] rfl _
  | .filter test, row, scope => by
    refine .events (.of_none ?_)
    split <;> rfl
  | .group column nested, row, scope =>
    have hnested : Explained [.group column nested] [] (visits 0 nested ∅ scope) :=
      (explained_visits 0 nested ∅ scope).mono fun _ ↦ .group List.mem_cons_self
    .gathered (fun _ _ ↦ rfl) (hnested.behind [.dispatch row scope "group" remaining])
  | .select _, _, _ => .of_none rfl
  | .discard _, _, _ => .of_none rfl
  | .operator op, _, _ => op.elim

theorem explained_visits (behind : Nat) :
    ∀ (steps : List (Step Empty)) (row : Row) (scope : Scope), Explained steps [] (visits behind steps row scope)
  | [], _, _ => .of_none rfl
  | step :: rest, row, scope =>
    have hstep := (step.explained_visits (rest.length + behind) row scope).mono fun _ h ↦
      h.mono (List.cons_subset_cons step (List.nil_subset rest))
    have hrest (row : Row) (scope : Scope) := (explained_visits behind rest row scope).mono fun _ h ↦
      h.mono (List.subset_cons_self step rest)
    .event (hstep.andThen hrest)

end

/-- Every error that a program gives is in its text, and what has been reported last is where it comes from. -/
theorem enumerate_error_origin {row : Row} {scope : Scope} {steps : List (Step Empty)} {n : Nat} {e : Error}
    (h : (enumerate row scope steps).given n = some (.error e)) :
    ∃ cause, cause <:+ (enumerate row scope steps).reported (n + 1) ∧ Origin steps cause e := by
  rw [given_enumerate, trace] at h
  obtain ⟨last, hlast, hsuffix⟩ := exists_failure h []
  obtain ⟨cause, hcause, horigin⟩ := explained_visits 0 steps row scope last e hlast
  refine ⟨cause, hcause.trans ?_, horigin⟩
  rwa [reported_enumerate]

theorem given_failed_column :
    let failing : Column := ⟨"b", .computed fun scope ↦
      if (scope.get? "a").any Value.isTrue then return .error "no" else return .ok .null⟩
    let steps : List (Step Empty) := [.column ⟨"a", .values [.null, .bool true]⟩, .group "c" [.columns [failing]]]
    (enumerate ∅ ∅ steps).given 1 = some (.error (.columnFailed "b" "no")) ∧
    ∃ cause, cause <:+ (enumerate ∅ ∅ steps).reported 2 ∧ Origin steps cause (.columnFailed "b" "no") := by
  intro failing steps
  have h : (enumerate ∅ ∅ steps).given 1 = some (.error (.columnFailed "b" "no")) := rfl
  exact ⟨h, enumerate_error_origin h⟩

end RowProduct
