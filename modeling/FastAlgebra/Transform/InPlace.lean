import FastAlgebra.Transform.Request

/-! Requests that change a plan and a list where they stand. The table of reversed indices is
rewritten entry by entry, the table of roots grows level by level, and the list is permuted by
swaps before its blocks are joined. A failure keeps all that was changed before it, so a request
that failed halfway would leave its traces here.
-/

namespace FastAlgebra

/-- What the requests change: a plan, the list that is handed over, and the log so far. -/
structure Workspace (T : Type) where
  plan : Plan T
  slice : Array T
  events : List Event

/-- The workspace of a request: the plan at hand and the list that is handed over. -/
def Workspace.handed {T : Type} (plan : Plan T) (request : PlanRequest T) (events : List Event)
    : Workspace T :=
  ⟨plan, request.slice.toArray, events⟩

/-- Steps on a workspace. What was changed before a failure stays changed. -/
abbrev Steps (T α : Type) : Type :=
  EStateM Fault (Workspace T) α

/-- Swaps an entry with the one at its partner, unless the partner came first. -/
def swapOnce {T : Type} (partner : Nat → Nat) (a : Array T) (i : Nat) : Array T :=
  if i < partner i then a.swapIfInBounds i (partner i) else a

/-- Swaps each entry with the one at its partner, each pair once. -/
def swapPairs {T : Type} (partner : Nat → Nat) (a : Array T) : Array T :=
  (List.range a.size).foldl (swapOnce partner) a

/-- Writes the reversal of an index for the length `n`. It follows from the reversal of the half of
the index, which the table has to hold already.
-/
def rewriteEntry (n : Nat) (table : Array Nat) (i : Nat) : Array Nat :=
  table.setIfInBounds i ((table.getD (i / 2) 0 ||| (i % 2) * n) >>> 1)

/-- Rewrites a table of reversed indices for the length `n`, from the front: the entry at the half
of an index is a new one by then.
-/
def rewriteReversal (n : Nat) (table : Array Nat) : Array Nat :=
  (List.range n).foldl (rewriteEntry n) (table.take n ++ Array.replicate (n - table.size) 0)

namespace Steps

variable {T : Type} [TransformScalar T]

def emit (event : Event) : Steps T Unit :=
  modify fun w => { w with events := w.events ++ [event] }

def changeReversal (f : Array Nat → Array Nat) : Steps T Unit :=
  modify fun w => { w with plan.reversal := f w.plan.reversal }

def changeSlice (f : Plan T → Array T → Array T) : Steps T Unit :=
  modify fun w => { w with slice := f w.plan w.slice }

/-- Appends the roots of one level. -/
def extendLevel (k : Nat) : Steps T Unit := do
  let w ← get
  match TransformScalar.extendRoots w.plan.roots k with
  | .ok roots => set { w with plan.roots := roots }
  | .error violation => throw (.violated violation)

/-- Grows the tables to cover the length `n`. -/
def reserve (n : Nat) : Steps T Unit := do
  let w ← get
  if n ≤ w.plan.capacity then
    pure ()
  else if ¬ IsDyadic n then
    throw (.violated (.lengthNotPowerOfTwo n))
  else if TransformScalar.maxLength T < n then
    throw (.violated (.lengthAboveMaximum n (TransformScalar.maxLength T)))
  else do
    emit (.tablesGrown w.plan.capacity n)
    changeReversal (rewriteReversal n)
    forM (doublings w.plan.capacity n) extendLevel

/-- Transforms the list of the workspace. -/
def forward : Steps T Unit := do
  let w ← get
  let n := w.slice.size
  if n ≠ 0 ∧ ¬ IsDyadic n then
    throw (.violated (.lengthNotPowerOfTwo n))
  else if n ≤ 1 then
    pure ()
  else do
    reserve n
    changeSlice fun plan a =>
      let shift := (plan.reversal.size / n).log2
      swapPairs (fun i => plan.reversal.getD i 0 >>> shift) a
    forM (doublings 1 n) fun k => changeSlice fun plan a => butterflies plan.roots a k

/-- Undoes `forward`. -/
def inverse : Steps T Unit := do
  let w ← get
  let n := w.slice.size
  if n ≤ 1 then
    pure ()
  else do
    forward
    changeSlice fun _ a => (reflect a.toList).toArray
    changeSlice fun _ a => a.map (· * TransformScalar.inverseLength n)

/-- Runs steps on a list of their own in place of the one at hand. -/
def onBuffer (buffer : List T) (steps : Steps T Unit) : Steps T (List T) := fun w =>
  match steps.run { w with slice := buffer.toArray } with
  | .ok _ v => .ok v.slice.toList { v with slice := w.slice }
  | .error fault v => .error fault { v with slice := w.slice }

/-- Multiplies two lists on buffers; the lists themselves are only read. -/
def convolve (a b : List T) : Steps T (List T) :=
  if a.isEmpty || b.isEmpty then
    pure []
  else do
    let length := a.length + b.length - 1
    let n := length.nextPowerOfTwo
    let imageA ← onBuffer (CoeffList.resize n a) forward
    let imageB ← onBuffer (CoeffList.resize n b) forward
    let factor : T := TransformScalar.inverseLength n
    let images := List.zipWith (fun x y => x * y * factor) imageA imageB
    let product ← onBuffer (reflect images) forward
    pure (product.take length)

/-- Runs steps on a new plan, which takes the place of the one at hand if they succeed. -/
def onNewPlan (steps : Steps T Unit) : Steps T Unit := fun w =>
  match steps.run { w with plan := Plan.base } with
  | .ok _ v => .ok () v
  | .error fault v => .error fault { v with plan := w.plan }

/-- Carries out a request. A list that is to be transformed is the one of the workspace. -/
def perform : PlanRequest T → Steps T (Option (List T))
  | .fresh => do
      onNewPlan (pure ())
      pure none
  | .withCapacity n => do
      onNewPlan (reserve n)
      pure none
  | .reserve n => do
      reserve n
      pure none
  | .capacity => pure none
  | .forward _ => do
      forward
      let w ← get
      pure (some w.slice.toList)
  | .inverse _ => do
      inverse
      let w ← get
      pure (some w.slice.toList)
  | .convolve a b => some <$> convolve a b

end Steps

namespace Plan

variable {T : Type} [TransformScalar T]

/-- The plan that a request leaves behind when it is carried out in place, also when it fails. -/
def afterSteps (plan : Plan T) (request : PlanRequest T) : Plan T :=
  match (Steps.perform request).run (.handed plan request []) with
  | .ok _ w => w.plan
  | .error _ w => w.plan

/-- The plan that a history of requests leaves behind. -/
def reached (history : List (PlanRequest T)) : Plan T :=
  history.foldl afterSteps base

end Plan

end FastAlgebra
