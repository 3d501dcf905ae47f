import FastAlgebra.Event

/-! Runs that end with a value, and runs that end with a fault. What a kernel computes is stated
apart from what it logs: a run yields a value if that is its outcome, whatever the log.
-/

namespace FastAlgebra.Logged

variable {ε α β : Type}

/-- The run ends with the value. -/
def Yields (run : Logged ε α) (value : α) : Prop :=
  run.outcome = .ok value

@[simp]
theorem yields_pure (value : α) : (pure value : Logged ε α).Yields value :=
  rfl

@[simp]
theorem yields_emit (event : ε) : (emit event).Yields () :=
  rfl

@[simp]
theorem not_yields_fail (fault : Fault) (value : α) : ¬ (fail fault : Logged ε α).Yields value :=
  nofun

@[simp]
theorem yields_pure_iff (found value : α)
    : (pure found : Logged ε α).Yields value ↔ found = value := by
  simp [Yields]

@[simp]
theorem yields_ofContract_iff (result : Except Violation α) (value : α)
    : (ofContract result : Logged ε α).Yields value ↔ result = .ok value := by
  cases result <;> simp [Yields, ofContract]

@[simp]
theorem yields_ofResult_iff (result : Except PolyError α) (value : α)
    : (ofResult result : Logged ε α).Yields value ↔ result = .ok value := by
  cases result <;> simp [Yields, ofResult]

/-- A sequence that yields a value passes through a value of its first run. -/
theorem yields_bind_iff {first : Logged ε α} {next : α → Logged ε β} {last : β}
    : (first >>= next).Yields last
      ↔ ∃ middle, first.Yields middle ∧ (next middle).Yields last := by
  simp only [Yields, outcome_bind]
  rcases first.outcome with fault | middle
  · simp [bind, Except.bind]
  · simp [bind, Except.bind]

theorem yields_map_iff {run : Logged ε α} {f : α → β} {last : β}
    : (f <$> run).Yields last ↔ ∃ value, run.Yields value ∧ f value = last := by
  simp only [Yields, outcome_map]
  rcases run.outcome with fault | value
  · simp [Functor.map, Except.map]
  · simp [Functor.map, Except.map]

/-- A run yields at most one value. -/
theorem Yields.unique {run : Logged ε α} {first second : α} (left : run.Yields first)
    (right : run.Yields second)
    : first = second :=
  Except.ok.inj (left.symm.trans right)

/-- A sequence ends as its second run does on the value of the first. -/
theorem Yields.outcome_bind {first : Logged ε α} {middle : α} (h : first.Yields middle)
    (next : α → Logged ε β)
    : (first >>= next).outcome = (next middle).outcome := by
  have reached : first.outcome = .ok middle := h
  rw [Logged.outcome_bind, reached]
  rfl

/-- A sequence yields what its second run yields on the value of the first. -/
theorem Yields.bind {first : Logged ε α} {next : α → Logged ε β} {middle : α} {last : β}
    (left : first.Yields middle) (right : (next middle).Yields last)
    : (first >>= next).Yields last :=
  (left.outcome_bind next).trans right

theorem Yields.map {run : Logged ε α} {value : α} (f : α → β) (h : run.Yields value)
    : (f <$> run).Yields (f value) := by
  have ends : run.outcome = .ok value := h
  rw [Yields, outcome_map, ends]
  rfl

/-- Only the values of the first run count for what follows it. -/
theorem bind_congr_of_yields {first : Logged ε α} {next other : α → Logged ε β}
    (same : ∀ value, first.Yields value → next value = other value)
    : first >>= next = first >>= other := by
  obtain ⟨events, fault | value⟩ := first
  · rfl
  · simp only [bind, andThen, same value rfl]

/-- The worker does not matter for the value of two independent runs. -/
theorem Yields.both {apart : Bool} {left : Unit → Logged ε α} {right : Unit → Logged ε β}
    {first : α} {second : β} (hl : (left ()).Yields first) (hr : (right ()).Yields second)
    : (both apart left right).Yields (first, second) := by
  rw [both_eq]
  exact hl.bind (hr.bind (yields_pure _))

/-- A run that yields a value refuses nothing. -/
theorem Yields.insist {run : Logged ε α} {value : α} (h : run.Yields value)
    : run.insist.Yields value := by
  have ends : run.outcome = .ok value := h
  simp only [Logged.insist, ends]
  exact h

/-- Turning refusals into broken promises adds no values. -/
@[simp]
theorem yields_insist_iff {run : Logged ε α} {value : α}
    : run.insist.Yields value ↔ run.Yields value := by
  constructor
  · intro h
    rw [Logged.insist] at h
    split at h
    · exact nomatch h
    · exact h
  · exact Yields.insist

-----------------------------------------------------------------------------------------
-- Faults
-----------------------------------------------------------------------------------------

/-- The run ends with the fault. -/
def Fails (run : Logged ε α) (fault : Fault) : Prop :=
  run.outcome = .error fault

@[simp]
theorem fails_fail (fault : Fault) : (fail fault : Logged ε α).Fails fault :=
  rfl

/-- A run that yields a value does not fail. -/
theorem Yields.not_fails {run : Logged ε α} {value : α} (h : run.Yields value) (fault : Fault)
    : ¬ run.Fails fault := by
  intro fails
  exact nomatch h.symm.trans fails

/-- A run fails in one way. -/
theorem Fails.unique {run : Logged ε α} {first second : Fault} (left : run.Fails first)
    (right : run.Fails second)
    : first = second :=
  Except.error.inj (left.symm.trans right)

/-- A fault of the first run ends a sequence. -/
theorem Fails.bind {first : Logged ε α} {fault : Fault} (h : first.Fails fault)
    (next : α → Logged ε β)
    : (first >>= next).Fails fault := by
  have reached : first.outcome = .error fault := h
  rw [Fails, outcome_bind, reached]
  rfl

@[simp]
theorem map_refuse (f : α → β) (error : PolyError)
    : f <$> (refuse error : Logged ε α) = refuse error :=
  rfl

theorem map_ofResult (f : α → β) (result : Except PolyError α)
    : f <$> (ofResult result : Logged ε α) = ofResult (f <$> result) := by
  cases result <;> rfl

theorem Fails.map {run : Logged ε α} {fault : Fault} (h : run.Fails fault) (f : α → β)
    : (f <$> run).Fails fault := by
  have reached : run.outcome = .error fault := h
  rw [Fails, outcome_map, reached]
  rfl

end FastAlgebra.Logged
