import TypeInference.Solver.Basic
import TypeInference.Types.Union

/-! # Leaf cases

The cases of a union, seen through a substitution: a case that resolves to a union is replaced by the cases of that
union, and a case that equals an earlier one is dropped.
-/

namespace TypeInference.Solver

structure LeafState where
  leaves : List Ty := []
  opened : List NodeId := []

/-- Adds the leaf cases of a type. Every step into a union is a step into one that was not opened before, so the first
argument need not exceed the number of nodes plus one. -/
def addLeaves (g : TypeGraph) (s : Substitution) : Nat → LeafState → Ty → Except Fault LeafState
  | 0, _, _ => .error .outOfSteps
  | fuel + 1, found, t =>
    match s.lookup t, g.unionCases? (s.lookup t) with
    | .node i, some cases =>
      if found.opened.contains i then .ok found
      else cases.foldlM (addLeaves g s fuel) { found with opened := i :: found.opened }
    | t, _ => do
      if ← g.anyEqual found.leaves t then return found
      return { found with leaves := found.leaves ++ [t] }

/-- The leaf cases of the union with the given number and cases, in the order of the first visit. -/
def leafCases (g : TypeGraph) (s : Substitution) (u : NodeId) (cases : List Ty) : Except Fault (List Ty) := do
  let found ← cases.foldlM (addLeaves g s (g.size + 1)) { opened := [u] }
  return found.leaves

end TypeInference.Solver
