import CronSchedule.CommandLine.Run
import CronSchedule.Proofs.ArgumentTexts
import CronSchedule.Proofs.EarliestTime
import CronSchedule.Proofs.Records

/-!
# Runs of the command

The fields and the time to start from are given, and a debug switch may be. The arguments are read one after the
other: the switch, the time, the mark behind which there are only fields, and then the fields
(`foldlM_commandLine_of_ok`), or they end with the time if it cannot be read (`foldlM_commandLine_of_error`). After
that a run does what the library does with the same texts, and prints only when it has a time to print
(`exists_runEnds`).

On the error stream the log stands in front of the error. It has those records of the run that the filter lets through,
which are the records of the library with one of the command's own among them. The only warning is that of a search that
fails, so by default no other run has a log (`RunEnds.of_fails`, `RunEnds.filter_warnings_of_not_fails`).
-/

namespace CronSchedule

/-! ## Command lines -/

/-- How `--debug` stands on a command line. -/
inductive DebugSwitch where
  | absent
  | alone
  | valued (value : List Char)

namespace DebugSwitch

def arguments : DebugSwitch → List (List Char)
  | absent => []
  | alone => ["--debug".toList]
  | valued v => ["--debug=".toList ++ v]

def isOn : DebugSwitch → Bool
  | absent => false
  | alone => true
  | valued v => CronSchedule.isOn v

def value? : DebugSwitch → Option (List Char)
  | absent => none
  | alone => some "true".toList
  | valued v => some v

end DebugSwitch

/-- The arguments for a run from the time that `start` writes. -/
def commandLine (d : DebugSwitch) (start : List Char) (expressions : List (List Char)) : List (List Char) :=
  d.arguments ++ ("--now=".toList ++ start) :: "--".toList :: expressions

/-! ## What a run comes to -/

/-- Lines of text, each with the line feed that ends it. -/
def linesText (lines : List String) : String :=
  String.join (lines.map (· ++ "\n"))

/-- The line has the name of the field and lists its values. -/
def Schedule.ListsField (c : Schedule) (f : Field) (line : String) : Prop :=
  ∃ text, (c.values f).Lists text ∧ line = f.name ++ ": " ++ String.ofList text

/-- The outcome of a run that says how the command is used, and why it prints no time. -/
def Outcome.refused (reason : String) : Outcome where
  exitCode := 1
  output := linesText
    ["Usage: cron-next [OPTIONS] <MINUTE> <HOUR> <DAY_OF_MONTH> <MONTH> <DAY_OF_WEEK>",
      "Prints the next matching time as --time=YYYY-MM-DDTHH:MM:00"]
  errors := linesText ["error: " ++ reason]

/-- The record of the command itself, between those of reading a schedule and that of its search. -/
def searchRecord (c : Schedule) (now : DateTime) : Record :=
  ⟨.debug, "searching for next matching time", [("now", .text now.text), ("crontab", .text c.description)]⟩

/-- The record of a search that fails. -/
def searchWarning (e : Exhausted) (steps : Nat) : Record :=
  ⟨.warning, "no matching time within search bound",
    [("from", .text e.since.text), ("bound_year", .number e.boundYear), ("steps", .number steps)]⟩

/-- What a run from the time that `start` writes comes to: its records, and its outcome with nothing of them shown. -/
inductive RunEnds (d : DebugSwitch) (start : List Char) (texts : Field → List Char) : List Record → Outcome → Prop
  | printed {now : DateTime} {c : Schedule} {x : DateTime} {listing : List String} {expansions : List Record}
      {steps : Nat} {last : Record} :
      DateTime.read start = .ok now → Schedule.ofFields (Field.all.map texts) = .ok c → c.nextAfter now = .ok x →
      (if d.isOn then List.Forall₂ c.ListsField Field.all listing else listing = []) →
      Expansions texts Field.all expansions none → c.SearchEnds now (Slot.of now).next steps last (.ok x) →
      RunEnds d start texts (expansions ++ [searchRecord c now, last])
        ⟨0, linesText (listing ++ [String.ofList x.argument]), ""⟩
  | invalidTime {fault : TimeFault} : DateTime.read start = .error fault →
      RunEnds d start texts [] (.refused (ArgumentError.invalidTime start fault).message)
  | unreadable {now : DateTime} {e : TermError} {expansions : List Record} :
      DateTime.read start = .ok now → Schedule.ofFields (Field.all.map texts) = .error (.invalidTerm e) →
      Expansions texts Field.all expansions (some e) → RunEnds d start texts expansions (.refused e.message)
  | exhausted {now : DateTime} {c : Schedule} {e : Exhausted} {expansions : List Record} {steps : Nat}
      {last : Record} :
      DateTime.read start = .ok now → Schedule.ofFields (Field.all.map texts) = .ok c → c.nextAfter now = .error e →
      Expansions texts Field.all expansions none →
      c.SearchEnds now (Slot.of now).next steps last (.error (.exhausted e)) →
      RunEnds d start texts (expansions ++ [searchRecord c now, last]) (.refused e.message)

/-- The time and the schedule can be read, and the search for a time fails. -/
def SearchFails (start : List Char) (expressions : List (List Char)) (e : Exhausted) : Prop :=
  ∃ now c, DateTime.read start = .ok now ∧ Schedule.ofFields expressions = .ok c ∧ c.nextAfter now = .error e

/-! ## Reading the arguments -/

namespace Scan

theorem foldlM_debug (d : DebugSwitch) : d.arguments.foldlM readArgument {} = .ok { debug := d.value? } := by
  cases d with
  | absent => rfl
  | alone => rfl
  | valued v => rfl

theorem readArgument_now (debug : Option (List Char)) (start : List Char) :
    readArgument { debug := debug } ("--now=".toList ++ start) = setNow { debug := debug } start :=
  rfl

/-- Behind `--` there are fields only, and nothing is open there. -/
def behind (i : Invocation) : Scan :=
  { i with onlyFields := true }

theorem readArgument_behind {i : Invocation} (h : i.fields.length < Field.all.length) (e : List Char) :
    readArgument (behind i) e = .ok (behind { i with fields := i.fields ++ [e] }) := by
  have hargument : readArgument (behind i) e = readField (behind i) e := if_pos rfl
  have hfield : readField (behind i) e = _ := if_neg (Nat.not_le_of_lt h)
  rw [hargument, hfield]
  rfl

theorem foldlM_behind {i : Invocation} {expressions : List (List Char)}
    (h : i.fields.length + expressions.length ≤ Field.all.length) :
    expressions.foldlM readArgument (behind i) = .ok (behind { i with fields := i.fields ++ expressions }) := by
  induction expressions generalizing i with
  | nil =>
    rw [List.append_nil]
    rfl
  | cons e expressions ih =>
    rw [List.length_cons] at h
    rw [List.foldlM_cons, bind_of_ok (readArgument_behind (by omega) e), ih]
    · rw [List.append_assoc]
      rfl
    · rw [List.length_append, List.length_singleton]
      omega

theorem foldlM_commandLine (d : DebugSwitch) (start : List Char) (expressions : List (List Char)) :
    (commandLine d start expressions).foldlM readArgument {} =
      setNow { debug := d.value? } start >>= fun s => ("--".toList :: expressions).foldlM readArgument s := by
  unfold commandLine
  rw [List.foldlM_append, bind_of_ok (foldlM_debug d), List.foldlM_cons, readArgument_now]

section
variable {d : DebugSwitch} {start : List Char} {expressions : List (List Char)}

theorem foldlM_commandLine_of_error {fault : TimeFault} (h : DateTime.read start = .error fault) :
    (commandLine d start expressions).foldlM readArgument {} = fail (.invalidTime start fault) := by
  have hnow : setNow { debug := d.value? } start = fail (.invalidTime start fault) := by
    unfold setNow
    rw [h]
    rfl
  rw [foldlM_commandLine, hnow]
  rfl

theorem foldlM_commandLine_of_ok {now : DateTime} (h : DateTime.read start = .ok now)
    (hl : expressions.length = Field.all.length) :
    (commandLine d start expressions).foldlM readArgument {} = .ok (behind ⟨expressions, d.value?, some now⟩) := by
  have hnow : setNow { debug := d.value? } start = .ok { debug := d.value?, now := some now } := by
    unfold setNow
    rw [h]
    rfl
  have hmark : readArgument { debug := d.value?, now := some now } "--".toList =
      .ok (behind ⟨[], d.value?, some now⟩) := rfl
  rw [foldlM_commandLine, bind_of_ok hnow, List.foldlM_cons, bind_of_ok hmark, foldlM_behind]
  · rfl
  · rw [List.length_nil, Nat.zero_add]
    exact Nat.le_of_eq hl

end

end Scan

namespace Invocation

section
variable {d : DebugSwitch} {start : List Char} {expressions : List (List Char)}

theorem read_commandLine_of_error {fault : TimeFault} (h : DateTime.read start = .error fault) :
    read (commandLine d start expressions) = .error (.error (.invalidTime start fault)) := by
  unfold read
  rw [Scan.foldlM_commandLine_of_error h]
  rfl

theorem read_commandLine_of_ok {now : DateTime} (h : DateTime.read start = .ok now)
    (hl : expressions.length = Field.all.length) :
    read (commandLine d start expressions) = .ok ⟨expressions, d.value?, some now⟩ := by
  unfold read
  rw [bind_of_ok (Scan.foldlM_commandLine_of_ok h hl)]
  exact if_neg (Nat.not_lt_of_le (Nat.le_of_eq hl.symm))

/-- With nothing in the environment the command line alone decides. -/
theorem debugOn_switch (d : DebugSwitch) (fields : List (List Char)) (now : Option DateTime) :
    debugOn ⟨fields, d.value?, now⟩ none = d.isOn := by
  cases d with
  | absent =>
    change isOn "false".toList = false
    decide
  | alone =>
    change isOn "true".toList = true
    decide
  | valued v => rfl

end

section
variable {i : Invocation} {clock : DateTime}

theorem next_of_unreadable {e : ReadError} (h : Schedule.ofFields i.fields = .error e) :
    i.next clock = ⟨(Schedule.readLogged i.fields).events, .error (.unreadable e)⟩ := by
  have hout := Schedule.outcome_mapError_readLogged_of_error h
  unfold next
  exact Logged.bind_of_error hout _

theorem next_of_read {c : Schedule} (h : Schedule.ofFields i.fields = .ok c) :
    let now := i.now.getD clock
    i.next clock =
      ⟨(Schedule.readLogged i.fields).events ++ .searching now c :: (c.searchFrom false now).events,
        ((c.nextAfter now).mapError .exhausted).map fun x => (c, x)⟩ := by
  intro now
  have hout := Schedule.outcome_mapError_readLogged_of_ok h
  unfold next
  rw [Logged.bind_of_ok hout, Logged.note_bind, Logged.bind_pure]
  rfl

end

end Invocation

/-! ## What is printed -/

namespace Outcome

theorem failure_eq_refused (e : CommandError) : failure e = .refused e.message := by
  unfold failure refused
  rw [mk.injEq]
  exact ⟨rfl, by decide +kernel, by simp [linesText]⟩

theorem exitCode_refused (reason : String) : (refused reason).exitCode ≠ 0 := by
  change (1 : UInt32) ≠ 0
  decide

theorem exitCode_behind (o : Outcome) (log : String) : (o.behind log).exitCode = o.exitCode :=
  rfl

theorem errors_behind (o : Outcome) (log : String) : (o.behind log).errors = log ++ o.errors :=
  rfl

theorem behind_empty (o : Outcome) : o.behind "" = o := by
  unfold behind
  rw [String.empty_append]

end Outcome

theorem linesText_append_singleton (lines : List String) (line : String) :
    linesText (lines ++ [line]) = linesText lines ++ line ++ "\n" := by
  unfold linesText
  rw [List.map_append, String.join_append, String.append_assoc]
  rfl

theorem Schedule.exists_fieldListing (c : Schedule) :
    ∃ lines, List.Forall₂ c.ListsField Field.all lines ∧ c.fieldListing = linesText lines := by
  refine ⟨Field.all.map fun f => f.name ++ ": " ++ String.ofList (c.values f).listing, ?_, ?_⟩
  · rw [List.forall₂_map_right_iff, List.forall₂_same]
    exact fun f _ => ⟨_, (c.values f).lists_listing, rfl⟩
  · simp [fieldListing, linesText, Field.all, String.append_assoc]

theorem DebugSwitch.exists_listing (d : DebugSwitch) (c : Schedule) :
    ∃ listing, (if d.isOn then List.Forall₂ c.ListsField Field.all listing else listing = []) ∧
      (if d.isOn then c.fieldListing else "") = linesText listing := by
  by_cases hd : d.isOn = true
  · simp only [if_pos hd]
    exact c.exists_fieldListing
  · simp only [if_neg hd]
    exact ⟨[], rfl, rfl⟩

/-! ## Runs -/

section
variable {arguments : List (List Char)}

theorem run_of_argumentError {e : ArgumentError} (h : Invocation.read arguments = .error (.error e))
    (logging : Logging) (env : Option (List Char)) (clock : DateTime) :
    run logging arguments env clock = .refused e.message := by
  unfold run
  rw [h]
  exact Outcome.failure_eq_refused _

theorem run_of_read {i : Invocation} (h : Invocation.read arguments = .ok i) (logging : Logging)
    (env : Option (List Char)) (clock : DateTime) :
    run logging arguments env clock =
      (match (i.next clock).outcome with
      | .error e => Outcome.refused e.message
      | .ok (c, x) => .success ((if i.debugOn env then c.fieldListing else "") ++ String.ofList x.argument ++
          "\n")).behind (logging.text ((i.next clock).events.map Event.record)) := by
  unfold run
  rw [h]
  dsimp only
  cases (i.next clock).outcome with
  | error e => exact congrArg (Outcome.behind · _) (Outcome.failure_eq_refused _)
  | ok found => rfl

end

section
variable {d : DebugSwitch} {start : List Char} {texts : Field → List Char} {records : List Record} {said : Outcome}

/-- A run comes to what it says itself, with the records that the filter lets through in front of the error. -/
theorem exists_runEnds (logging : Logging) (d : DebugSwitch) (start : List Char) (texts : Field → List Char)
    (clock : DateTime) :
    ∃ records said, RunEnds d start texts records said ∧
      run logging (commandLine d start (Field.all.map texts)) none clock = said.behind (logging.text records) := by
  cases hnow : DateTime.read start with
  | error fault =>
    refine ⟨[], _, .invalidTime hnow, ?_⟩
    rw [run_of_argumentError (Invocation.read_commandLine_of_error hnow), logging.text_nil, Outcome.behind_empty]
  | ok now =>
    let i : Invocation := ⟨Field.all.map texts, d.value?, some now⟩
    have hi : Invocation.read (commandLine d start (Field.all.map texts)) = .ok i :=
      Invocation.read_commandLine_of_ok hnow rfl
    rw [run_of_read hi, Invocation.debugOn_switch]
    cases Schedule.readLogged_reads texts with
    | @error e hexpansions he =>
      rw [Invocation.next_of_unreadable (i := i) he]
      exact ⟨_, _, .unreadable hnow he hexpansions, rfl⟩
    | @ok c hexpansions hc =>
      obtain ⟨last, steps, hlast, hends⟩ := Schedule.search_ends c now (Slot.of now).next
      change (c.searchFrom false now).events = _ at hlast
      change c.SearchEnds now _ steps last.record ((c.nextAfter now).mapError .exhausted) at hends
      have hnext : i.next clock = ⟨_ ++ .searching now c :: (c.searchFrom false now).events,
          ((c.nextAfter now).mapError .exhausted).map _⟩ := Invocation.next_of_read hc
      rw [hnext, hlast, List.map_append]
      cases hx : c.nextAfter now with
      | error e =>
        rw [hx] at hends
        exact ⟨_, _, .exhausted hnow hc hx hexpansions hends, rfl⟩
      | ok x =>
        rw [hx] at hends
        obtain ⟨listing, hlisting, htext⟩ := d.exists_listing c
        refine ⟨_, _, .printed hnow hc hx hlisting hexpansions hends, ?_⟩
        rw [linesText_append_singleton, ← htext]
        rfl

theorem SearchFails.not_found {expressions : List (List Char)} {e : Exhausted} (h : SearchFails start expressions e) :
    ¬ ∃ now c x, DateTime.read start = .ok now ∧ Schedule.ofFields expressions = .ok c ∧ c.nextAfter now = .ok x := by
  intro hfound
  obtain ⟨now, c, hnow, hc, he⟩ := h
  obtain ⟨now', c', x, hnow', hc', hx⟩ := hfound
  cases hnow.symm.trans hnow'
  cases hc.symm.trans hc'
  cases he.symm.trans hx

theorem RunEnds.exitCode_eq_zero_iff (h : RunEnds d start texts records said) :
    said.exitCode = 0 ↔
      ∃ now c x, DateTime.read start = .ok now ∧ Schedule.ofFields (Field.all.map texts) = .ok c ∧
        c.nextAfter now = .ok x := by
  cases h with
  | printed hnow hc hx _ _ _ => exact iff_of_true rfl ⟨_, _, _, hnow, hc, hx⟩
  | invalidTime he =>
    refine iff_of_false (Outcome.exitCode_refused _) fun hfound => ?_
    obtain ⟨now, c, x, hnow, -, -⟩ := hfound
    cases he.symm.trans hnow
  | unreadable _ he _ =>
    refine iff_of_false (Outcome.exitCode_refused _) fun hfound => ?_
    obtain ⟨now, c, x, -, hc, -⟩ := hfound
    cases he.symm.trans hc
  | exhausted hnow hc he _ _ =>
    exact iff_of_false (Outcome.exitCode_refused _) (SearchFails.not_found ⟨_, _, hnow, hc, he⟩)

/-! ## Warnings -/

theorem Expansions.filter_warnings {fs : List Field} {failure : Option TermError}
    (h : Expansions texts fs records failure) : records.filter showsWarnings = [] := by
  induction h with
  | nil => rfl
  | stop => rfl
  | cons _ _ _ ih => exact ih

theorem filter_warnings_append {expansions : List Record} (h : Expansions texts Field.all expansions none)
    (c : Schedule) (now : DateTime) (last : Record) :
    (expansions ++ [searchRecord c now, last]).filter showsWarnings = [last].filter showsWarnings := by
  rw [List.filter_append, h.filter_warnings]
  rfl

theorem RunEnds.of_fails (h : RunEnds d start texts records said) {e : Exhausted}
    (he : SearchFails start (Field.all.map texts) e) :
    said = .refused e.message ∧ ∃ steps, records.filter showsWarnings = [searchWarning e steps] := by
  cases h with
  | printed hnow hc hx _ _ _ => exact absurd ⟨_, _, _, hnow, hc, hx⟩ he.not_found
  | invalidTime hfault =>
    obtain ⟨now, c, hnow, -, -⟩ := he
    cases hfault.symm.trans hnow
  | unreadable _ hread _ =>
    obtain ⟨now, c, -, hc, -⟩ := he
    cases hread.symm.trans hc
  | exhausted hnow hc hx hexpansions hends =>
    obtain ⟨now', c', hnow', hc', he⟩ := he
    cases hnow.symm.trans hnow'
    cases hc.symm.trans hc'
    cases hx.symm.trans he
    refine ⟨rfl, ?_⟩
    rw [filter_warnings_append hexpansions]
    cases hends
    exact ⟨_, rfl⟩

theorem RunEnds.filter_warnings_of_not_fails (h : RunEnds d start texts records said)
    (hnone : ∀ e, ¬ SearchFails start (Field.all.map texts) e) : records.filter showsWarnings = [] := by
  cases h with
  | printed _ _ _ _ hexpansions hends =>
    rw [filter_warnings_append hexpansions]
    cases hends
    rfl
  | invalidTime => rfl
  | unreadable _ _ hexpansions => exact hexpansions.filter_warnings
  | exhausted hnow hc hx _ _ => exact absurd ⟨_, _, hnow, hc, hx⟩ (hnone _)

/-- By default the log of a search that fails is its warning. -/
theorem RunEnds.errors_of_fails (h : RunEnds d start texts records said) {logging : Logging}
    (hdefault : logging.shows = filterFor none) {e : Exhausted} (he : SearchFails start (Field.all.map texts) e) :
    ∃ steps, (said.behind (logging.text records)).errors =
      logging.line (searchWarning e steps) ++ linesText ["error: " ++ e.message] := by
  obtain ⟨rfl, steps, hsteps⟩ := h.of_fails he
  refine ⟨steps, ?_⟩
  rw [Outcome.errors_behind]
  unfold Logging.text
  rw [hdefault, filterFor_none, hsteps, List.map_singleton, String.join_cons, String.join_nil, String.append_empty]
  rfl

theorem RunEnds.behind_of_not_fails (h : RunEnds d start texts records said) {logging : Logging}
    (hdefault : logging.shows = filterFor none) (hnone : ∀ e, ¬ SearchFails start (Field.all.map texts) e) :
    said.behind (logging.text records) = said := by
  unfold Logging.text
  rw [hdefault, filterFor_none, h.filter_warnings_of_not_fails hnone]
  exact said.behind_empty

/-! ## The error of a time that cannot be read -/

theorem RunEnds.of_error (h : RunEnds d start texts records said) {fault : TimeFault}
    (hfault : DateTime.read start = .error fault) :
    records = [] ∧ said = .refused (ArgumentError.invalidTime start fault).message := by
  cases h with
  | invalidTime hfault' =>
    cases hfault.symm.trans hfault'
    exact ⟨rfl, rfl⟩
  | printed hnow => cases hfault.symm.trans hnow
  | unreadable hnow => cases hfault.symm.trans hnow
  | exhausted hnow => cases hfault.symm.trans hnow

theorem errors_refused_invalidTime {fault : TimeFault} (h : isPlain start = true) :
    let s := String.ofList start
    (Outcome.refused (ArgumentError.invalidTime start fault).message).errors =
      "error: invalid value '" ++ s ++ "' for '--now <NOW>': invalid time '" ++ s ++ "': " ++ fault.text ++
        "\n\nFor more information, try '--help'.\n" := by
  intro s
  have hmessage := ArgumentError.message_of_isPlain (e := .invalidTime start fault) h
  rw [hmessage]
  unfold Outcome.refused linesText ArgumentError.text ArgumentError.words
  apply String.toList_inj.1
  simp only [List.map_singleton, String.join_cons, String.join_nil, String.toList_append, List.append_assoc]
  rfl

end

/-- **Runs of the command.** A run exits with 0 just if the time can be read, the fields are a schedule and it has a
next time. That time is printed then, after the listing of the fields if the switch is on. In all other cases the
exit code is 1, nothing of that is printed, and the error is the one that the library gives. The error stream has what
the filter lets through of the records, and then the error: by default a run that searches in vain has its warning
there, and no other run has anything. A time that cannot be read is quoted as it stands if it is plain. -/
theorem run_commandLine (logging : Logging) (d : DebugSwitch) (start : List Char) (texts : Field → List Char)
    (clock : DateTime) :
    let expressions := Field.all.map texts
    let outcome := run logging (commandLine d start expressions) none clock
    ∃ records said, RunEnds d start texts records said ∧ outcome = said.behind (logging.text records) ∧
      (outcome.exitCode = 0 ↔ ∃ now c x, DateTime.read start = .ok now ∧ Schedule.ofFields expressions = .ok c ∧
        c.nextAfter now = .ok x) ∧
      (logging.shows = filterFor none →
        (∀ e, SearchFails start expressions e → ∃ steps, outcome.errors =
          logging.line (searchWarning e steps) ++ linesText ["error: " ++ e.message]) ∧
          ((∀ e, ¬ SearchFails start expressions e) → outcome = said)) ∧
      ∀ fault, DateTime.read start = .error fault → isPlain start = true →
        let s := String.ofList start
        outcome.errors =
          "error: invalid value '" ++ s ++ "' for '--now <NOW>': invalid time '" ++ s ++ "': " ++ fault.text ++
            "\n\nFor more information, try '--help'.\n" := by
  intro expressions outcome
  obtain ⟨records, said, hends, hrun⟩ := exists_runEnds logging d start texts clock
  have houtcome : outcome = said.behind (logging.text records) := hrun
  refine ⟨records, said, hends, houtcome, ?_, fun hdefault => ?_, fun fault hfault hplain => ?_⟩
  · rw [houtcome, Outcome.exitCode_behind]
    exact hends.exitCode_eq_zero_iff
  · rw [houtcome]
    exact ⟨fun e he => hends.errors_of_fails hdefault he, hends.behind_of_not_fails hdefault⟩
  · obtain ⟨hrecords, hsaid⟩ := hends.of_error hfault
    rw [houtcome, hrecords, hsaid, logging.text_nil, Outcome.behind_empty]
    exact errors_refused_invalidTime hplain

-- There is no 31 February. By default the error stream begins with the warning, so it does not begin with the error.
theorem run_commandLine_february :
    let logging : Logging := ⟨filterFor none, fun _ => "2024-03-15T10:00:00.000000Z", Record.line⟩
    let start := "2024-03-15T10:00".toList
    let expressions := ["0", "0", "31", "2", "*"].map String.toList
    let clock : DateTime := ⟨⟨2024, 3, 15, by decide⟩, 10, 0, 0, 0, by decide⟩
    let outcome := run logging (commandLine .absent start expressions) none clock
    (∃ e, SearchFails start expressions e) ∧ outcome.exitCode ≠ 0 ∧ ¬ "error: ".toList <+: outcome.errors.toList := by
  intro logging start expressions clock outcome
  let c : Schedule := ⟨.ofList [0], .ofList [0], .ofList [31], .ofList [2], .full .dayOfWeek, false, true⟩
  have hnow : DateTime.read start = .ok clock := by decide +kernel
  have hc : Schedule.ofFields expressions = .ok c := by decide +kernel
  have hfails : ∃ e, SearchFails start expressions e := by
    cases hx : c.nextAfter clock with
    | error e => exact ⟨e, clock, c, hnow, hc, hx⟩
    | ok x =>
      have hx' := ((c.nextAfter_isAnswer clock).ok_iff x).1 hx
      obtain ⟨hm, hd, -, -⟩ := Schedule.fires_iff.1 hx'.mem.fires
      have hmonth : x.date.month = 2 := List.mem_singleton.1 (ValueSet.mem_ofList.1 hm).1
      have hday : x.date.day = 31 := List.mem_singleton.1 (ValueSet.mem_ofList.1 (of_decide_eq_true hd)).1
      have hmax := Date.day_le_of_february hmonth
      omega
  obtain ⟨e, he⟩ := hfails
  obtain ⟨records, said, hends, hrun⟩ := exists_runEnds logging .absent start
    (Schedule.assign "0".toList "0".toList "31".toList "2".toList "*".toList) clock
  have houtcome : outcome = said.behind (logging.text records) := hrun
  have hdefault : logging.shows = filterFor none := rfl
  obtain ⟨steps, herrors⟩ := hends.errors_of_fails hdefault he
  obtain ⟨line, hline⟩ := Logging.exists_line_eq (l := logging) rfl (searchWarning e steps)
  rw [houtcome]
  refine ⟨⟨e, he⟩, ?_, fun hprefix => ?_⟩
  · rw [Outcome.exitCode_behind, ne_eq, hends.exitCode_eq_zero_iff]
    exact he.not_found
  · rw [herrors, hline, String.append_assoc, String.toList_append] at hprefix
    obtain ⟨rest, hrest⟩ := hprefix
    have hhead := congrArg List.head? hrest
    change some 'e' = ("2024-03-15T10:00:00.000000Z".toList ++ _).head? at hhead
    simp at hhead

end CronSchedule
