import TypeInference.Solver.Step

/-! # Runs of the solver

A run steps until no work is left, a constraint fails or a disjunction is met. A disjunction tries its choices one after
the other, each with all of the remaining work, and succeeds when exactly one solution comes out. Which of several
solutions count as one may depend on the order in which their tables are walked, so this order is left open.

A run asks its clock whether it may go on: once for every constraint that it takes up, and once after the choices of
every disjunction.
-/

namespace TypeInference.Solver

/-- How often a run may still go on; without a number it may always. -/
abbrev Clock := Option Nat

/-- What all branches of a run share: the clock and the report, latest event first. -/
structure Shared where
  clock : Clock
  events : List Event := []

abbrev RunM := StateT Shared (Except Fault)

/-- Whether time is up; asking takes time. -/
def expired : RunM Bool := do
  let s ← get
  match s.clock with
  | none => return false
  | some 0 => return true
  | some (n + 1) =>
    set { s with clock := some n }
    return false

def report (events : List Event) : RunM Unit :=
  modify fun s => { s with events := events.reverse ++ s.events }

/-- What was reported so far, latest event first. -/
def reported : RunM (List Event) := return (← get).events

def fail (g : TypeGraph) (s : State) (c : Constraint) (kind : FailureKind) : RunM Outcome := do
  report [.fail s.depth kind c]
  let (graph, c) ← (c.reify s.subst g : Except Fault _)
  return .failed [{ kind := kind, constraint := c, graph := graph }]

/-- The orders in which tables are walked when solutions are compared. Each walk has its own, which depends on what was
reported before and on the place of the walk in the comparison. -/
structure Walks where
  order {α : Type} : List Event → List Nat → List α → List α
  perm {α : Type} (past : List Event) (place : List Nat) (xs : List α) : (order past place xs).Perm xs

/-- Tables are walked as they stand. -/
def Walks.inOrder : Walks := ⟨fun _ _ xs => xs, fun _ _ _ => .refl _⟩

/-- The outcomes whose solutions differ from those before them once they are fully resolved; the first list holds the
ones found so far, each with its resolved table. -/
def distinctOutcomes (w : Walks) (past : List Event) (g : TypeGraph) :
    List (Outcome × Substitution) → List Outcome → Except Fault (List Outcome)
  | known, [] => .ok (known.map Prod.fst)
  | known, o :: rest => do
    let entries := w.order past [rest.length] (o.solution?.getD .empty).entries
    let (g, resolved) ← Substitution.reified ⟨entries⟩ g
    let same (k : (Outcome × Substitution) × Nat) : Except Fault Bool :=
      (w.order past [rest.length, k.2] (resolved.varsOfEither k.1.2)).allM (Substitution.agreeOn g resolved k.1.2)
    if ← known.zipIdx.anyM same then distinctOutcomes w past g known rest
    else distinctOutcomes w past g (known ++ [(o, resolved)]) rest

def combineWith (w : Walks) (g : TypeGraph) (s : State) (c : Constraint) (outcomes : List Outcome) : RunM Outcome := do
  report (outcomes.zipIdx.map fun (o, i) => .branch (s.depth + 1) i o.isOk)
  match outcomes.filter Outcome.isOk with
  | [] => return .failed (outcomes.flatMap Outcome.failures)
  | [o] => return o
  | accepted =>
    match ← (distinctOutcomes w (← reported) g [] accepted : Except Fault _) with
    | [o] => return o
    | _ => fail g s c .ambiguous

/-- Runs from a state. The number bounds the steps on one branch; a run that needs more has no outcome, which is not the
same as one whose time is up. -/
def runWith (w : Walks) (g : TypeGraph) : Nat → State → RunM Outcome
  | 0, s => if s.work.isEmpty then return .solved s.subst else throw .outOfSteps
  | steps + 1, s =>
    match s.work with
    | [] => return .solved s.subst
    | c :: rest =>
      if s.idle > 0 ∧ s.idle ≥ s.work.length then
        match unstall s with
        | some (.next s events) => do
          report events
          runWith w g steps s
        | _ => fail g s c .stalled
      else do
        let s := { s with work := rest }
        if ← expired then
          fail g s c .timeout
        else
          report [.pop s.depth c rest.length]
          let follow (r : StepResult) : RunM Outcome :=
            match r with
            | .next s events => do
              report events
              runWith w g steps s
            | .mismatch => fail g s c .typeMismatch
          match c with
          | .relate relation t u location => follow (← (matchTypes g s relation t u location : Except Fault _))
          | .member t m u location => follow (matchMember g s t m u location)
          | .oneOf choices _ => do
            let outcomes ← choices.mapM fun choice =>
              runWith w g steps { work := choice :: rest, subst := s.subst, depth := s.depth + 1 }
            if ← expired then fail g s c .timeout else combineWith w g s c outcomes
          | .unknown _ _ => throw .unknownConstraint

/-- Steps that a run takes at most when its clock has a number: every second step at least takes time. -/
def stepsFor : Clock → Nat
  | some n => 2 * n + 3
  | none => 1000000000

structure Report where
  outcome : Outcome
  events : List Event
  clock : Clock
deriving Inhabited

def solveWith (w : Walks) (g : TypeGraph) (constraints : List Constraint) (assumed : Substitution) (clock : Clock) :
    Except Fault Report := do
  let (outcome, shared) ← (runWith w g (stepsFor clock) (.initial constraints assumed)).run { clock := clock }
  return { outcome := outcome, events := shared.events.reverse, clock := shared.clock }

def combine (g : TypeGraph) (s : State) (c : Constraint) (outcomes : List Outcome) : RunM Outcome :=
  combineWith .inOrder g s c outcomes

def run (g : TypeGraph) (steps : Nat) (s : State) : RunM Outcome := runWith .inOrder g steps s

def solve (g : TypeGraph) (constraints : List Constraint) (assumed : Substitution) (clock : Clock) :
    Except Fault Report :=
  solveWith .inOrder g constraints assumed clock

end TypeInference.Solver
