import CronSchedule.Schedule.Basic
import CronSchedule.Schedule.Error

/-!
# The journal

Reading a schedule and searching with it record what they do: an event for each field that expands, and one for
the end of a search. In between, the command records that it begins to search. `Logged` is the outcome of such a
computation together with its events. In a sequence the events of the parts follow each other, and the first error
ends it; what was recorded until then is kept.
-/

namespace CronSchedule

inductive Event where
  | expanded (field : Field) (expression : List Char) (values : ValueSet)
  | searching (now : DateTime) (c : Schedule)
  | found (time : DateTime) (steps : Nat)
  | exhausted (e : Exhausted) (steps : Nat)
  deriving DecidableEq

structure Logged (ε α : Type) where
  events : List Event
  outcome : Except ε α

namespace Logged

variable {ε δ α β : Type}

def bind (x : Logged ε α) (f : α → Logged ε β) : Logged ε β :=
  match x.outcome with
  | .ok a => ⟨x.events ++ (f a).events, (f a).outcome⟩
  | .error e => ⟨x.events, .error e⟩

instance : Monad (Logged ε) where
  pure a := ⟨[], .ok a⟩
  bind := bind

/-- Records an event and does nothing else. -/
def note (e : Event) : Logged ε Unit :=
  ⟨[e], .ok ()⟩

def mapError (f : ε → δ) (x : Logged ε α) : Logged δ α :=
  ⟨x.events, x.outcome.mapError f⟩

@[simp] theorem outcome_pure (a : α) : (pure a : Logged ε α).outcome = .ok a :=
  rfl

@[simp] theorem outcome_bind (x : Logged ε α) (f : α → Logged ε β) :
    (x >>= f).outcome = x.outcome >>= fun a => (f a).outcome := by
  change (x.bind f).outcome = _
  simp only [bind]
  cases x.outcome <;> rfl

theorem bind_of_ok {x : Logged ε α} {a : α} (h : x.outcome = .ok a) (f : α → Logged ε β) :
    x >>= f = ⟨x.events ++ (f a).events, (f a).outcome⟩ := by
  change x.bind f = _
  simp only [bind, h]

theorem bind_of_error {x : Logged ε α} {e : ε} (h : x.outcome = .error e) (f : α → Logged ε β) :
    x >>= f = ⟨x.events, .error e⟩ := by
  change x.bind f = _
  simp only [bind, h]

theorem note_bind (e : Event) (f : Unit → Logged ε α) : note e >>= f = ⟨e :: (f ()).events, (f ()).outcome⟩ :=
  rfl

theorem bind_pure (x : Logged ε α) (f : α → β) : (x >>= fun a => pure (f a)) = ⟨x.events, x.outcome.map f⟩ := by
  change x.bind _ = _
  unfold bind
  cases x.outcome with
  | ok a => exact congrArg (mk · _) (List.append_nil _)
  | error e => rfl

end Logged

end CronSchedule
