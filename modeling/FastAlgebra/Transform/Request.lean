import FastAlgebra.Transform.Plan

/-! Requests to a plan that is kept between them. A request that fails leaves the plan as it
was.
-/

namespace FastAlgebra

/-- What a user can ask of a plan. -/
inductive PlanRequest (T : Type) where
  | fresh
  | withCapacity (n : Nat)
  | reserve (n : Nat)
  | capacity
  | forward (a : List T)
  | inverse (a : List T)
  | convolve (a b : List T)

namespace PlanRequest

variable {T : Type}

/-- The length that the tables have to cover for a request, zero if it needs no tables. -/
def length : PlanRequest T → Nat
  | .fresh => 0
  | .withCapacity n => n
  | .reserve n => n
  | .capacity => 0
  | .forward a => a.length
  | .inverse a => a.length
  | .convolve a b =>
      if a.isEmpty || b.isEmpty then 0 else (a.length + b.length - 1).nextPowerOfTwo

/-- The request asks for a new plan. -/
def startsAnew : PlanRequest T → Bool
  | .fresh => true
  | .withCapacity _ => true
  | _ => false

/-- The list that is handed over to be transformed where it stands. -/
def slice : PlanRequest T → List T
  | .forward a => a
  | .inverse a => a
  | _ => []

end PlanRequest

namespace Plan

variable {T : Type} [TransformScalar T]

/-- Carries out a request: the plan afterwards, and the list that was asked for, if any. -/
def perform (plan : Plan T) : PlanRequest T → Kernel (Plan T × Option (List T))
  | .fresh => pure (base, none)
  | .withCapacity n => (·, none) <$> withCapacity n
  | .reserve n => (·, none) <$> plan.reserve n
  | .capacity => pure (plan, none)
  | .forward a => (fun (plan, b) => (plan, some b)) <$> plan.forward a
  | .inverse a => (fun (plan, b) => (plan, some b)) <$> plan.inverse a
  | .convolve a b => (fun (plan, c) => (plan, some c)) <$> plan.convolve a b

def after (plan : Plan T) (request : PlanRequest T) : Plan T :=
  match (plan.perform request).outcome with
  | .ok (next, _) => next
  | .error _ => plan

def afterAll (history : List (PlanRequest T)) : Plan T :=
  history.foldl after base

/-- The lengths that a plan has served, the latest one first. A request that fails is not served,
and a new plan has served nothing but its own request.
-/
def record (plan : Plan T) (lengths : List Nat) (request : PlanRequest T) : List Nat :=
  match (plan.perform request).outcome with
  | .ok _ => request.length :: if request.startsAnew then [] else lengths
  | .error _ => lengths

def servedFrom (plan : Plan T) (lengths : List Nat) : List (PlanRequest T) → List Nat
  | [] => lengths
  | request :: rest => (plan.after request).servedFrom (plan.record lengths request) rest

/-- The lengths that the plan at the end of a history has served. -/
def served (history : List (PlanRequest T)) : List Nat :=
  base.servedFrom [] history

end Plan

end FastAlgebra
