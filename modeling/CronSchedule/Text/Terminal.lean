/-!
# Text as a terminal shows it

Control characters tell a terminal what to do, and so do the sequences that begin with an escape character: a
terminal shows nothing for them. Text that is not for a terminal is written without them, and `shown` is what
is left. Of the control characters it keeps those that lay a text out: tab, line feed, form feed and carriage
return.

A sequence goes on until its own end, whatever stands in between. So what is shown of a text depends on what stands
before it; `ShownAs` is for texts that end outside of all sequences. Plain text is one of them (`shownAs_self`), and so
is plain text with marks around it (`ShownAs.marked`).
-/

namespace CronSchedule

/-- Puts a text between the sequences that turn bold type on and all marks off again. -/
def marked (s : String) : String :=
  "\x1b[1m" ++ s ++ "\x1b[0m"

def isLayout (c : Char) : Bool :=
  c = '\t' || c = '\n' || c = '\x0c' || c = '\r'

/-- Outside of all sequences, or the kind of sequence that has begun and how far it has come. -/
inductive SequenceState where
  | outside
  | escape
  | escapeIntermediate
  | control
  | deviceStart
  | deviceParameters
  | deviceIntermediate
  | string
  | command
  deriving DecidableEq

namespace SequenceState

def within (first last : Nat) (c : Char) : Bool :=
  first ≤ c.toNat && c.toNat ≤ last

/-- A string ends at the byte 9C, even if that byte is a part of a longer character. -/
def endsString (c : Char) : Bool :=
  (String.utf8EncodeChar c).contains 0x9C

/-- What an escape character introduces. -/
def introduced (c : Char) : SequenceState :=
  if within 0x20 0x2F c then escapeIntermediate
  else if c = '[' then control
  else if c = ']' then command
  else if c = 'P' then deviceStart
  else if c = 'X' || c = '^' || c = '_' then string
  else if within 0x30 0x7E c then outside
  else escape

/-- An escape character begins a new sequence anywhere, and a cancel or substitute character ends any. -/
def next (s : SequenceState) (c : Char) : SequenceState :=
  if c = '\x1b' then escape
  else if c = '\x18' || c = '\x1a' then outside
  else
    match s with
    | outside => outside
    | escape => introduced c
    | escapeIntermediate => if within 0x30 0x7E c then outside else escapeIntermediate
    | control => if within 0x40 0x7E c then outside else control
    | deviceStart =>
      if within 0x20 0x2F c then deviceIntermediate
      else if within 0x30 0x3F c then deviceParameters
      else if within 0x40 0x7E c then string
      else deviceStart
    | deviceParameters =>
      if within 0x20 0x2F c then deviceIntermediate
      else if within 0x3C 0x7E c then string
      else deviceParameters
    | deviceIntermediate => if within 0x30 0x7E c then string else deviceIntermediate
    | string => if endsString c then outside else string
    | command => if c = '\x07' then outside else command

/-- Whether a character is shown: outside of sequences all but control characters are, and layout is also shown in
the middle of a short sequence. -/
def shows (s : SequenceState) (c : Char) : Bool :=
  match s with
  | outside => isLayout c || (0x20 ≤ c.toNat && c.toNat ≠ 0x7F)
  | escape => isLayout c
  | escapeIntermediate => isLayout c
  | control => isLayout c
  | _ => false

end SequenceState

/-- What is shown of a text that begins in the state `s`. Once layout has been shown in the middle of a sequence,
the text after it is shown as well. If sequences resume, that lasts until the next control character, and there
the sequence goes on; if not, the sequence is over. -/
def shownFrom (resume : Bool) (showing : Bool) (s : SequenceState) : List Char → List Char
  | [] => []
  | c :: text =>
    if s.shows c || (showing && SequenceState.outside.shows c) then
      c :: shownFrom resume true (if resume && c.toNat < 0x80 then s else .outside) text
    else shownFrom resume false (s.next c) text

def shown (resume : Bool) (s : String) : String :=
  String.ofList (shownFrom resume false .outside s.toList)

/-- Whether a text has no control characters in it but those for layout. -/
def isPlain (s : List Char) : Bool :=
  s.all SequenceState.outside.shows

/-- Outside of sequences it makes no difference whether text is already being shown. -/
theorem shownFrom_outside (resume showing : Bool) (text : List Char) :
    shownFrom resume showing .outside text = shownFrom resume true .outside text := by
  cases text with
  | nil => rfl
  | cons c text =>
    simp only [shownFrom]
    cases SequenceState.outside.shows c <;> simp

/-! ## Texts that can be put one after the other -/

/-- Of `s` a terminal shows `t`, and then all that it shows of the text behind it. -/
def ShownAs (s t : String) : Prop :=
  ∀ resume showing rest,
    shownFrom resume showing .outside (s.toList ++ rest) = t.toList ++ shownFrom resume true .outside rest

section
variable {s s' t t' : String}

theorem shownAs_self (h : isPlain s.toList = true) : ShownAs s s := by
  intro resume showing rest
  rw [shownFrom_outside]
  unfold isPlain at h
  generalize s.toList = text at h ⊢
  induction text with
  | nil => rfl
  | cons c text ih =>
    rw [List.all_cons, Bool.and_eq_true] at h
    simp only [List.cons_append, shownFrom, h.1, Bool.true_or, ite_true, ite_self, ih h.2]

theorem ShownAs.append (h : ShownAs s t) (h' : ShownAs s' t') : ShownAs (s ++ s') (t ++ t') := by
  intro resume showing rest
  rw [String.toList_append, String.toList_append, List.append_assoc, List.append_assoc, h, h']

theorem ShownAs.intercalate (h : ShownAs s s) {texts : List String} (htexts : ∀ text ∈ texts, ShownAs text text) :
    ShownAs (s.intercalate texts) (s.intercalate texts) := by
  induction texts with
  | nil => exact shownAs_self rfl
  | cons text texts ih =>
    rw [List.forall_mem_cons] at htexts
    cases texts with
    | nil =>
      rw [String.intercalate_singleton]
      exact htexts.1
    | cons next texts =>
      rw [String.intercalate_cons_cons]
      exact (htexts.1.append h).append (ih htexts.2)

theorem ShownAs.marked (h : ShownAs s t) : ShownAs (marked s) t := by
  intro resume showing rest
  have hon : ∀ text, shownFrom resume true .outside ("\x1b[1m".toList ++ text) =
      shownFrom resume false .outside text := fun _ => rfl
  have hoff : shownFrom resume true .outside ("\x1b[0m".toList ++ rest) = shownFrom resume false .outside rest := rfl
  unfold CronSchedule.marked
  rw [shownFrom_outside, String.toList_append, String.toList_append, List.append_assoc, List.append_assoc, hon, h, hoff,
    shownFrom_outside]

theorem ShownAs.shown_eq (h : ShownAs s t) (resume : Bool) : shown resume s = t := by
  have hs := h resume false []
  rw [List.append_nil] at hs
  unfold shown
  rw [hs, shownFrom, List.append_nil, String.ofList_toList]

end

end CronSchedule
