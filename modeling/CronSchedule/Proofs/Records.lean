import CronSchedule.Journal.Record
import CronSchedule.Proofs.ReadSchedule
import CronSchedule.Proofs.SearchRefinement
import CronSchedule.Proofs.SearchRounds

/-!
# What the journal says

A run records one event for each field up to the first that does not expand, and if all of them do, one more for the
end of the search (`runLogged_journal`). The events of a sequence are those of its parts, so reading is taken field by
field (`reads_cons`), and the search adds its only one (`search_ends`).
-/

namespace CronSchedule

/-! ## Reading -/

/-- The records of expanding fields in a row, up to the first that does not expand, and what is wrong with that one. -/
inductive Expansions (texts : Field → List Char) : List Field → List Record → Option TermError → Prop
  | nil : Expansions texts [] [] none
  | stop {f : Field} {fs : List Field} {e : TermError} : expand f (texts f) = .error e →
      Expansions texts (f :: fs) [] (some e)
  | cons {f : Field} {fs : List Field} {S : ValueSet} {listing : List Char} {records : List Record}
      {failure : Option TermError} : expand f (texts f) = .ok S → S.Lists listing →
      Expansions texts fs records failure →
      Expansions texts (f :: fs)
        (⟨.debug, "expanded cron field",
            [("field", .text f.name.toList), ("expr", .text (trim (texts f))), ("values", .text listing)]⟩ :: records)
        failure

/-- A computation records the expansions of the fields `fs`, and fails just if one of them does. -/
inductive Reads (texts : Field → List Char) (fs : List Field) {α : Type} (x : Logged ReadError α) : Prop
  | ok {a : α} : Expansions texts fs (x.events.map Event.record) none → x.outcome = .ok a → Reads texts fs x
  | error {e : TermError} : Expansions texts fs (x.events.map Event.record) (some e) →
      x.outcome = .error (.invalidTerm e) → Reads texts fs x

section
variable {texts : Field → List Char} {f : Field} {fs : List Field} {α : Type}

theorem reads_nil (a : α) : Reads texts [] (pure a : Logged ReadError α) :=
  .ok .nil rfl

theorem reads_cons {k : ValueSet → Logged ReadError α} (h : ∀ S, Reads texts fs (k S)) :
    Reads texts (f :: fs) (expandLogged f (texts f) >>= k) := by
  cases hx : expand f (texts f) with
  | error e =>
    have hlog : expandLogged f (texts f) = ⟨[], .error (.invalidTerm e)⟩ := by
      unfold expandLogged
      rw [hx]
    rw [hlog]
    exact .error (.stop hx) rfl
  | ok S =>
    have hlog : expandLogged f (texts f) = ⟨[.expanded f (trim (texts f)) S], .ok S⟩ := by
      unfold expandLogged
      rw [hx]
    rw [hlog, Logged.bind_of_ok rfl]
    cases h S with
    | ok hrest ha => exact .ok (.cons hx S.lists_listing hrest) ha
    | error hrest he => exact .error (.cons hx S.lists_listing hrest) he

namespace Schedule

theorem readLogged_reads (texts : Field → List Char) : Reads texts Field.all (readLogged (Field.all.map texts)) := by
  change Reads texts [.minute, .hour, .dayOfMonth, .month, .dayOfWeek] (readLogged [_, _, _, _, _])
  unfold readLogged
  exact reads_cons fun _ => reads_cons fun _ => reads_cons fun _ => reads_cons fun _ => reads_cons fun _ => reads_nil _

end Schedule

end

/-! ## Searching -/

namespace Schedule

/-- The record of a search for a time after or from `since`, with the slot `first` to begin with, and its outcome. -/
inductive SearchEnds (c : Schedule) (since : DateTime) (first : Slot) :
    Nat → Record → Except ScheduleError DateTime → Prop
  | found {steps : Nat} {last : Slot} {t : DateTime} : c.Rounds (first.year + 2) steps first last →
      last.year < first.year + 2 → last.time? = some t → c.fires t = true →
      SearchEnds c since first steps
        ⟨.debug, "found next matching time", [("next", .text t.text), ("steps", .number steps)]⟩ (.ok t)
  | exhausted {steps : Nat} {last : Slot} : c.Rounds (first.year + 2) steps first last →
      first.year + 2 ≤ last.year →
      SearchEnds c since first steps
        ⟨.warning, "no matching time within search bound",
          [("from", .text since.text), ("bound_year", .number (first.year + 2)), ("steps", .number steps)]⟩
        (.error (.exhausted ⟨since, first.year + 2⟩))

theorem search_ends (c : Schedule) (since : DateTime) (first : Slot) :
    ∃ event steps, (c.search since first).events = [event] ∧
      c.SearchEnds since first steps event.record ((c.search since first).outcome.mapError .exhausted) := by
  have hr := rounds_walk c (first.year + searchYears) first
  have hl := last_walk c (first.year + searchYears) first
  cases hf : (c.walk (first.year + searchYears) first).found with
  | some t =>
    rw [hf] at hl
    rw [search_of_found hf]
    obtain ⟨ht, hfires⟩ := verdict_eq_fires_iff.1 hl.2
    exact ⟨_, _, rfl, .found hr hl.1 ht hfires⟩
  | none =>
    rw [hf] at hl
    rw [search_of_not_found hf]
    exact ⟨_, _, rfl, .exhausted hr hl⟩

theorem SearchEnds.steps_eq_zero_iff {c : Schedule} {since : DateTime} {first : Slot} {steps : Nat} {record : Record}
    {outcome : Except ScheduleError DateTime} (h : c.SearchEnds since first steps record outcome) :
    steps = 0 ↔ ∃ t, first.time? = some t ∧ c.fires t = true := by
  cases h with
  | found hr _ ht hf =>
    refine ⟨fun h0 => ?_, fun ⟨t, ht⟩ => hr.eq_zero_of_fires (verdict_eq_fires_iff.2 ht)⟩
    subst h0
    cases hr
    exact ⟨_, ht, hf⟩
  | exhausted hr hle =>
    refine ⟨fun h0 => ?_, fun ⟨t, ht⟩ => hr.eq_zero_of_fires (verdict_eq_fires_iff.2 ht)⟩
    subst h0
    cases hr
    omega

/-! ## Runs -/

theorem outcome_mapError_readLogged_of_error {expressions : List (List Char)} {e : ReadError}
    (h : ofFields expressions = .error e) :
    ((readLogged expressions).mapError ScheduleError.unreadable).outcome = .error (.unreadable e) := by
  change (ofFields expressions).mapError _ = _
  rw [h]
  rfl

theorem outcome_mapError_readLogged_of_ok {expressions : List (List Char)} {c : Schedule}
    (h : ofFields expressions = .ok c) :
    ((readLogged expressions).mapError ScheduleError.unreadable).outcome = .ok c := by
  change (ofFields expressions).mapError _ = _
  rw [h]
  rfl

theorem runLogged_of_unreadable {expressions : List (List Char)} {e : ReadError}
    (h : ofFields expressions = .error e) (inclusive : Bool) (t : DateTime) :
    runLogged expressions inclusive t = ⟨(readLogged expressions).events, .error (.unreadable e)⟩ :=
  Logged.bind_of_error (outcome_mapError_readLogged_of_error h) _

theorem runLogged_of_read {expressions : List (List Char)} {c : Schedule} (h : ofFields expressions = .ok c)
    (inclusive : Bool) (t : DateTime) :
    runLogged expressions inclusive t =
      ⟨(readLogged expressions).events ++ (c.searchFrom inclusive t).events,
        (c.searchFrom inclusive t).outcome.mapError .exhausted⟩ :=
  Logged.bind_of_ok (outcome_mapError_readLogged_of_ok h) _

/-- **What the journal of a run says.** Nothing, if there are not five expressions. Otherwise the fields that expand
are recorded up to the first that does not, whose error is the outcome; and if there is none, the end of the search.
A line is the list of its words here. -/
theorem runLogged_journal (expressions : List (List Char)) (inclusive : Bool) (t : DateTime) :
    let run := runLogged expressions inclusive t
    let records := run.events.map Event.record
    let first := if inclusive then Slot.of t else (Slot.of t).next
    (expressions.length ≠ 5 → records = [] ∧ run.outcome = .error (.unreadable (.fieldCount expressions.length))) ∧
      ∀ texts : Field → List Char, expressions = Field.all.map texts →
        (∃ e, Expansions texts Field.all records (some e) ∧ ofFields expressions = .error (.invalidTerm e) ∧
            run.outcome = .error (.unreadable (.invalidTerm e))) ∨
          ∃ c expansions last steps, Expansions texts Field.all expansions none ∧ ofFields expressions = .ok c ∧
            records = expansions ++ [last] ∧ c.SearchEnds t first steps last run.outcome ∧
            (steps = 0 ↔ ∃ x, first.time? = some x ∧ c.fires x = true) := by
  intro run records first
  refine ⟨fun h => ?_, fun texts h => ?_⟩
  · have hrun : run = _ := runLogged_of_unreadable (ofFields_of_length_ne h) inclusive t
    rw [readLogged_of_length_ne h] at hrun
    exact ⟨congrArg (fun x => x.events.map Event.record) hrun, congrArg Logged.outcome hrun⟩
  subst h
  cases readLogged_reads texts with
  | error hexp he =>
    have hrun : run = _ := runLogged_of_unreadable he inclusive t
    have hrecords : records = _ := congrArg (fun x => x.events.map Event.record) hrun
    exact .inl ⟨_, hrecords ▸ hexp, he, congrArg Logged.outcome hrun⟩
  | @ok c hexp hc =>
    have hrun : run = _ := runLogged_of_read hc inclusive t
    obtain ⟨event, steps, hevent, hends⟩ := search_ends c t first
    have hsearch : c.searchFrom inclusive t = c.search t first := rfl
    rw [hsearch, hevent] at hrun
    have hout : run.outcome = (c.search t first).outcome.mapError .exhausted := congrArg Logged.outcome hrun
    have hrecords : records = _ := congrArg (fun x => x.events.map Event.record) hrun
    rw [List.map_append] at hrecords
    rw [← hout] at hends
    exact .inr ⟨c, _, event.record, steps, hexp, hc, hrecords, hends, hends.steps_eq_zero_iff⟩

-- The third field and the fourth do not expand: two fields are recorded, and the third is to blame.
theorem runLogged_journal_third_field :
    let texts := assign "*/20".toList "\t9 ".toList "1,32".toList "x".toList "*".toList
    let run := runLogged (Field.all.map texts) true ⟨⟨2024, 2, 29, by decide⟩, 12, 0, 30, 0, by decide⟩
    let e : TermError := ⟨.dayOfMonth, "32".toList, .valueOutOfRange⟩
    Expansions texts Field.all (run.events.map Event.record) (some e) ∧
      run.outcome = .error (.unreadable (.invalidTerm e)) ∧ run.events.length = 2 := by
  intro texts run e
  have hread : ofFields (Field.all.map texts) = .error (.invalidTerm e) := by decide +kernel
  rcases (runLogged_journal (Field.all.map texts) true _).2 texts rfl with ⟨e', hexp, he, hout⟩ | ⟨c, _, _, _, _, hc, _⟩
  · cases hread.symm.trans he
    exact ⟨hexp, hout, by decide +kernel⟩
  · cases hread.symm.trans hc

end Schedule

end CronSchedule
