import TypeInference.Constraint.Basic

/-! # Solver states

The solver works on a stack of constraints and a substitution. This module has the state, the outcome and the events of
a run; `Solver.Step` has its rules and `Solver.Run` the search.
-/

namespace TypeInference.Solver

inductive FailureKind where
  | typeMismatch
  | ambiguous
  | timeout
  | stalled
  | other (n : Int)
deriving DecidableEq, Repr, Inhabited

namespace FailureKind

def ofInt : Int → FailureKind
  | 0 => .typeMismatch
  | 1 => .ambiguous
  | 2 => .timeout
  | 3 => .stalled
  | n => .other n

def text : FailureKind → String
  | .typeMismatch => "type mismatch"
  | .ambiguous => "ambiguous expression"
  | .timeout => "timeout"
  | .stalled => "stalled"
  | .other n => s!"failure({n})"

end FailureKind

/-- A constraint that was given up, reified by what was known then. Its types live in a graph of their own, which
extends the one that was solved over. -/
structure Failure where
  kind : FailureKind
  constraint : Constraint
  graph : TypeGraph
deriving Inhabited

namespace Failure

def text (f : Failure) : String := f.kind.text ++ ": " ++ f.constraint.text f.graph

end Failure

/-- How a run ends. A disjunction without choices fails without a reason, so the list of failures may be empty. -/
inductive Outcome where
  | solved (solution : Substitution)
  | failed (failures : List Failure)
deriving Inhabited

namespace Outcome

def failures : Outcome → List Failure
  | .solved _ => []
  | .failed fs => fs

def solution? : Outcome → Option Substitution
  | .solved s => some s
  | .failed _ => none

/-- A run is accepted when nothing was given up. -/
def isOk (o : Outcome) : Bool := o.failures.isEmpty

end Outcome

inductive Event where
  | pop (depth : Nat) (constraint : Constraint) (pending : Nat)
  | requeue (depth : Nat) (constraint : Constraint)
  | bind (depth : Nat) (var : Int) (type : Ty)
  | fail (depth : Nat) (kind : FailureKind) (constraint : Constraint)
  | branch (depth : Nat) (choice : Nat) (ok : Bool)
deriving Inhabited

def Event.text (g : TypeGraph) : Event → String
  | .pop depth c pending => s!"solver: pop depth={depth} constraint={c.text g} pending={pending}"
  | .requeue depth c => s!"solver: requeue depth={depth} constraint={c.text g}"
  | .bind depth v t =>
    let type := if t = .absent then "<nil>" else g.textInMessage t
    s!"solver: bind depth={depth} var=${v} type={type}"
  | .fail depth kind c => s!"solver: fail depth={depth} kind={kind.text} constraint={c.text g}"
  | .branch depth choice ok => s!"solver: branch depth={depth} choice={choice} ok={ok}"

structure State where
  /-- The pending constraints; the head is solved next. -/
  work : List Constraint
  subst : Substitution
  /-- The number of disjunctions around the branch. -/
  depth : Nat := 0
  /-- The number of constraints put back since the last progress. -/
  idle : Nat := 0
deriving Inhabited

namespace State

/-- The first state: constraints of the highest rank are on top, and among those of one rank the last. -/
def initial (constraints : List Constraint) (assumed : Substitution) : State :=
  { work := (constraints.mergeSort fun a b => a.kind.rank ≤ b.kind.rank).reverse, subst := assumed }

def push (s : State) (c : Constraint) : State := { s with work := c :: s.work, idle := 0 }

def pushAll (s : State) (cs : List Constraint) : State := cs.foldl push s

def enqueue (s : State) (c : Constraint) : State := { s with work := s.work ++ [c] }

def progress (s : State) : State := { s with idle := 0 }

end State

end TypeInference.Solver
