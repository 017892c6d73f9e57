import TypeInference.Types.Equality

/-! # Unions

The union of a list of types: unions among them are opened one level, a type that equals an earlier one is dropped, and
a union of one type is that type.
-/

namespace TypeInference.TypeGraph

def openUnions (g : TypeGraph) (ts : List Ty) : List Ty :=
  ts.flatMap fun t => (g.unionCases? t).getD [t]

/-- Adds to `known` the types that equal none before them. -/
def distinctFrom (g : TypeGraph) : List Ty → List Ty → Except Fault (List Ty)
  | known, [] => .ok known
  | known, t :: ts => do
    if ← known.anyM (g.equal t) then g.distinctFrom known ts
    else g.distinctFrom (known ++ [t]) ts

def union (g : TypeGraph) (ts : List Ty) : Except Fault (TypeGraph × Ty) := do
  match ← g.distinctFrom [] (g.openUnions ts) with
  | [t] => return (g, t)
  | cases =>
    let (g, i) := g.add (.union cases)
    return (g, .node i)

end TypeInference.TypeGraph
