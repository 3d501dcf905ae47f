import FastAlgebra.Fault

/-! Computations that keep a log and may fail. The log of a failed run is kept, so an observer
sees how far the run came. The two projections `events` and `outcome` determine a computation,
and each is described on every constructor of the monad.
-/

namespace FastAlgebra

/-- A log together with a result or the fault that ended the run. -/
structure Logged (ε α : Type) where
  events : List ε
  outcome : Except Fault α

namespace Logged

variable {ε δ α β : Type}

def emit (event : ε) : Logged ε Unit :=
  ⟨[event], .ok ()⟩

def fail (fault : Fault) : Logged ε α :=
  ⟨[], .error fault⟩

def refuse (error : PolyError) : Logged ε α :=
  fail (.refused error)

/-- A silent computation from a result or a refusal. -/
def ofResult : Except PolyError α → Logged ε α
  | .ok value => ⟨[], .ok value⟩
  | .error error => refuse error

/-- A silent computation from a result or a broken promise. -/
def ofContract : Except Violation α → Logged ε α
  | .ok value => ⟨[], .ok value⟩
  | .error violation => fail (.violated violation)

/-- Runs a second computation on the result of the first; the logs are joined. -/
def andThen (first : Logged ε α) (next : α → Logged ε β) : Logged ε β :=
  match first.outcome with
  | .ok value =>
      let second := next value
      ⟨first.events ++ second.events, second.outcome⟩
  | .error fault => ⟨first.events, .error fault⟩

instance : Monad (Logged ε) where
  pure value := ⟨[], .ok value⟩
  bind := andThen

@[simp]
theorem outcome_pure (value : α) : (pure value : Logged ε α).outcome = .ok value :=
  rfl

@[simp]
theorem events_pure (value : α) : (pure value : Logged ε α).events = [] :=
  rfl

@[simp]
theorem outcome_emit (event : ε) : (emit event).outcome = .ok () :=
  rfl

@[simp]
theorem outcome_fail (fault : Fault) : (fail fault : Logged ε α).outcome = .error fault :=
  rfl

@[simp]
theorem outcome_refuse (error : PolyError)
    : (refuse error : Logged ε α).outcome = .error (.refused error) :=
  rfl

/-- The outcome of a sequence is the sequence of the outcomes. -/
@[simp]
theorem outcome_bind (first : Logged ε α) (next : α → Logged ε β)
    : (first >>= next).outcome = first.outcome >>= fun value => (next value).outcome := by
  obtain ⟨events, outcome⟩ := first
  cases outcome <;> rfl

@[simp]
theorem outcome_map (f : α → β) (run : Logged ε α)
    : (f <$> run).outcome = f <$> run.outcome := by
  obtain ⟨events, outcome⟩ := run
  cases outcome <;> rfl

@[ext]
theorem ext {first second : Logged ε α} (events : first.events = second.events)
    (outcome : first.outcome = second.outcome)
    : first = second := by
  cases first
  cases second
  simp_all

instance : LawfulMonad (Logged ε) :=
  LawfulMonad.mk' _
    (by rintro α ⟨events, _ | value⟩ <;> simp [Functor.map, andThen])
    (by intros; simp [bind, andThen, pure])
    (by
      rintro α β γ ⟨events, _ | value⟩ next last
      · rfl
      · simp only [bind, andThen]
        cases (next value).outcome <;> simp)

/-- Rewrites the log, entry by entry. -/
def mapEvents (f : ε → δ) (run : Logged ε α) : Logged δ α :=
  ⟨run.events.map f, run.outcome⟩

/-- Turns every refusal into a broken promise: the caller had ruled it out. -/
def insist (run : Logged ε α) : Logged ε α :=
  match run.outcome with
  | .error (.refused error) => ⟨run.events, .error (.violated (.undividable error))⟩
  | _ => run

/-- Runs two independent computations, the first one on a worker of its own if `apart` holds.
The log is that of the first followed by that of the second either way.
-/
def both (apart : Bool) (left : Unit → Logged ε α) (right : Unit → Logged ε β)
    : Logged ε (α × β) :=
  if apart then
    let worker := Task.spawn left
    let here := right ()
    worker.get >>= fun first => here >>= fun second => pure (first, second)
  else do
    let first ← left ()
    let second ← right ()
    pure (first, second)

/-- A worker of its own never shows in the answer or in the log. -/
theorem both_eq (apart : Bool) (left : Unit → Logged ε α) (right : Unit → Logged ε β)
    : both apart left right
      = left () >>= fun first => right () >>= fun second => pure (first, second) := by
  cases apart <;> rfl

end Logged

end FastAlgebra
