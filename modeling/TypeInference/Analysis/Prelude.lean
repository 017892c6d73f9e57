import TypeInference.Symbol.Table

/-! # The prelude

The scope around every module: the names of the scalar types and the overloads of the operators.
-/

namespace TypeInference.Prelude

/-- An overload: a name, the types of its operands and of its result. -/
abbrev Overload := String × List Ty × Ty

/-- Binary overloads of one operator, one for each type of operands. -/
def binary (name : String) (result : Ty → Ty) (operands : List Ty) : List Overload :=
  operands.map fun t => (name, [t, t], result t)

def numeric : List Ty := [.int, .float]

def scalars : List Ty := [.bool, .int, .float, .string]

/-- All operators in the order of their declaration. Unary minus shares the name of the binary one. -/
def overloads : List Overload :=
  binary "+" id [.int, .float, .string]
    ++ ["-", "*", "/"].flatMap (binary · id numeric)
    ++ ["<", "<=", ">", ">="].flatMap (binary · (fun _ => .bool) numeric)
    ++ ["==", "!="].flatMap (binary · (fun _ => .bool) scalars)
    ++ ["and", "or"].flatMap (binary · id [.bool])
    ++ numeric.map (fun t => ("-", [t], t))
    ++ [("not", [.bool], .bool)]

def declareScalar (scope : ScopeId) : TypeGraph × SymbolTable → Scalar → Except Fault (TypeGraph × SymbolTable)
  | (g, t), s => do
    let (g, i) := g.add (.metatype (.scalar s))
    let (t, _) ← t.declare scope s.text (.node i) false
    return (g, t)

def declareOverload (scope : ScopeId) : TypeGraph × SymbolTable → Overload → Except Fault (TypeGraph × SymbolTable)
  | (g, t), (name, operands, result) => do
    let (g, i) := g.addOperator operands result
    let (t, _) ← t.declare scope name (.node i) true
    return (g, t)

/-- Opens the scope of the prelude and declares everything in it. -/
def declare (g : TypeGraph) (t : SymbolTable) : Except Fault (TypeGraph × SymbolTable × ScopeId) := do
  let (t, scope) := t.addScope "prelude" .prelude noScope "prelude"
  let (g, t) ← Scalar.all.foldlM (declareScalar scope) (g, t)
  let (g, t) ← overloads.foldlM (declareOverload scope) (g, t)
  return (g, t, scope)

end TypeInference.Prelude
