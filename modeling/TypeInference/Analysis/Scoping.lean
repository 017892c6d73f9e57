import TypeInference.Analysis.Context
import TypeInference.Tree.Basic

/-! # Scoping

Opens the scopes of a module and declares its names in them. Functions, the branches of a conditional and the cases of a
match open scopes. The functions and type aliases of a module are declared before its statements are looked at, so they
can be used before they are defined. Every name is told the scope that it stands in; which symbol it means is found out
when it is typed.
-/

namespace TypeInference

open AnalysisM

/-- Where a node stands: the innermost scope around it, and the module. -/
structure Enclosure where
  scope : ScopeId
  module : String
deriving DecidableEq, Repr, Inhabited

namespace Enclosure

def enter (env : Enclosure) (name : String) (kind : ScopeKind) : AnalysisM Enclosure := do
  return { env with scope := ← newScope name kind env.scope env.module }

end Enclosure

mutual
def Sign.inScope (scope : ScopeId) : Sign → Except Fault Sign
  | .missing => .ok .missing
  | .name n => .ok (.name { n with scope := scope })
  | .func f => do return .func (← f.inScope scope)
  | .tuple t => do return .tuple (← t.inScope scope)
  | .union token cases => do return .union token (← Sign.inScopeCases scope cases)
/-- The cases of a union, none of which may be missing. -/
def Sign.inScopeCases (scope : ScopeId) : List Sign → Except Fault (List Sign)
  | [] => .ok []
  | .missing :: _ => .error .missing
  | s :: ss => do return (← s.inScope scope) :: (← Sign.inScopeCases scope ss)
def FuncSign.inScope (scope : ScopeId) : FuncSign → Except Fault FuncSign
  | ⟨token, none, codomain⟩ => do return ⟨token, none, ← codomain.inScope scope⟩
  | ⟨token, some domain, codomain⟩ => do
    return ⟨token, some (← domain.inScope scope), ← codomain.inScope scope⟩
def TupleSign.inScope (scope : ScopeId) : TupleSign → Except Fault TupleSign
  | ⟨token, label, elems⟩ => do return ⟨token, label, ← SignElem.inScopeAll scope elems⟩
def SignElem.inScope (scope : ScopeId) : SignElem → Except Fault SignElem
  | ⟨token, label, name, sign⟩ => do return ⟨token, label, name, ← sign.inScope scope⟩
def SignElem.inScopeAll (scope : ScopeId) : List (Option SignElem) → Except Fault (List (Option SignElem))
  | [] => .ok []
  | none :: _ => .error .missing
  | some e :: es => do return some (← e.inScope scope) :: (← SignElem.inScopeAll scope es)
end

namespace AnalysisM

def duplicate (scope : ScopeId) (token : Token) (name : String) : AnalysisM Unit := do
  let path ← ((← get).table.path scope : Except Fault _)
  diagnose .duplicateDeclaration token s!"{Text.quote name} is already declared in {path}"

/-- Declares a name, or reports that it is taken. -/
def declareOnce (scope : ScopeId) (token : Token) (name : String) (type : AnalysisM Ty) (overloadable : Bool) :
    AnalysisM (Option SymbolId) := do
  if ← canDeclare scope name overloadable then
    return some (← declare scope name (← type) overloadable)
  else
    duplicate scope token name
    return none

end AnalysisM

/-! ### Declarations -/

def Func.parameters (f : Func) : List (Option SignElem) :=
  match f.sign with
  | some s => (s.domain.map TupleSign.elems).getD []
  | none => []

/-- Gives a function a type of new variables, labelled as in its signature, and declares it if it has a name. -/
def Func.declare (scope : ScopeId) (f : Func) : AnalysisM Func := do
  let fields ← f.parameters.mapM fun
    | some e => do return { label := e.label, type := ← fresh : TupleField }
    | none => throw .missing
  let type ← newFunction fields (← fresh)
  let f := { f with mark := { f.mark with type := type }, scope := scope, symbol := noSymbol }
  if f.name = "" then return f
  let symbol ← declareOnce scope f.mark.token f.name (pure type) true
  return { f with symbol := symbol.getD noSymbol }

def TypeAlias.declare (scope : ScopeId) (a : TypeAlias) : AnalysisM TypeAlias := do
  let symbol ← declareOnce scope a.token a.name (do newType (.metatype (← fresh))) false
  return { a with scope := scope, symbol := symbol.getD noSymbol }

def Func.parameterTypes (f : Func) : AnalysisM (List Ty) := do
  let g := (← get).graph
  match g.function? f.mark.type with
  | some (some domain, _) =>
    match g.tuple? (.node domain) with
    | some (_, fields) => return fields.map TupleField.type
    | none => throw .missing
  | _ => throw .missing

/-- Declares parameters in the scope of a function, under their names or else their labels; those with neither have no
symbol. -/
def declareParameters (scope : ScopeId) : List (Option SignElem × Ty) → AnalysisM (List SymbolId)
  | [] => return []
  | (none, _) :: _ => throw .missing
  | (some e, type) :: rest => do
    let name := if e.name = "" then e.label else e.name
    if name = "" then declareParameters scope rest
    else
      match ← declareOnce scope e.token name (pure type) false with
      | some id => return id :: (← declareParameters scope rest)
      | none => declareParameters scope rest

/-! ### Scopes -/

/-- Tells an identifier its scope, and that nothing is known about its meaning. -/
def Ident.bind (env : Enclosure) (i : Ident) : Ident :=
  { i with scope := env.scope, symbol := noSymbol, candidates := [] }

mutual
/-- Opens the scopes of an expression and declares its names. A function at its root may have been declared before. -/
def Expr.bind (env : Enclosure) (declared : Option Func) : Expr → AnalysisM Expr
  | .missing => throw .missing
  | .func ⟨mark, name, sign, body, scope, inner, symbol, params⟩ => do
    let f : Func := ⟨mark, name, sign, body, scope, inner, symbol, params⟩
    let f ← match declared with
      | some f => pure f
      | none => f.declare env.scope
    let sign ← match f.sign with
      | some s => do pure (some (← (s.inScope env.scope : Except Fault _)))
      | none => pure none
    let within ← env.enter f.name .function
    let types ← f.parameterTypes
    let params ← declareParameters within.scope (f.parameters.zip types)
    let body ← match body with
      | .missing => pure .missing
      | body => body.bind within none
    return .func { f with sign := sign, inner := within.scope, params := params, body := body }
  | .cond mark _ _ condition thenBranch elseBranch => do
    let condition ← condition.bind env none
    let thenEnv ← env.enter "" .branch
    let thenBranch ← thenBranch.bind thenEnv none
    let elseEnv ← env.enter "" .branch
    let elseBranch ← elseBranch.bind elseEnv none
    return .cond mark thenEnv.scope elseEnv.scope condition thenBranch elseBranch
  | .matching mark subject cases => do
    return .matching mark (← subject.bind env none) (← MatchCase.bindAll env cases)
  | .letBinding b => do
    let symbol ← declareOnce env.scope b.mark.token b.name fresh false
    return .letBinding { b with scope := env.scope, symbol := symbol.getD noSymbol }
  | .binary mark op left right => do
    return .binary mark (op.bind env) (← left.bind env none) (← right.bind env none)
  | .unary mark op operand => do return .unary mark (op.bind env) (← operand.bind env none)
  | .call mark callee args => do return .call mark (← callee.bind env none) (← Labelled.bindAll env args)
  | .argument ⟨mark, label, value⟩ => do return .argument ⟨mark, label, ← value.bind env none⟩
  | .tuple mark label elems => do return .tuple mark label (← Labelled.bindAll env elems)
  | .element ⟨mark, label, value⟩ => do return .element ⟨mark, label, ← value.bind env none⟩
  | .select mark owner member => do return .select mark (← owner.bind env none) member
  | .ident i => return .ident (i.bind env)
  | .literal mark value => return .literal mark value
def Labelled.bindAll (env : Enclosure) : List (Option Labelled) → AnalysisM (List (Option Labelled))
  | [] => return []
  | none :: _ => throw .missing
  | some ⟨mark, label, value⟩ :: rest => do
    return some ⟨mark, label, ← value.bind env none⟩ :: (← Labelled.bindAll env rest)
/-- A case opens a scope for its pattern and value. -/
def MatchCase.bind (env : Enclosure) : MatchCase → AnalysisM MatchCase
  | ⟨token, pattern, value, _⟩ => do
    let within ← env.enter "" .matchCase
    let pattern ← pattern.bind within none
    let value ← value.bind within none
    return ⟨token, pattern, value, within.scope⟩
def MatchCase.bindAll (env : Enclosure) : List (Option MatchCase) → AnalysisM (List (Option MatchCase))
  | [] => return []
  | none :: _ => throw .missing
  | some c :: rest => do return some (← c.bind env) :: (← MatchCase.bindAll env rest)
end

/-! ### Modules -/

/-- What stands for the identifier of a module that was read without one. -/
def Module.generatedId : String := "<generated>"

/-- Declares a statement of a module ahead of the others: a function with a name, or a type alias. -/
def Node.declareAhead (scope : ScopeId) : Node → AnalysisM Node
  | .expr (.func f) => do
    if f.name = "" then return .expr (.func f) else return .expr (.func (← f.declare scope))
  | .alias a => do return .alias (← a.declare scope)
  | n => return n

def Node.declaredFunc? : Node → Option Func
  | .expr (.func f) => if f.name = "" then none else some f
  | _ => none

/-- The type alias with what was declared ahead for it. -/
def Node.declaredAlias (ahead : Node) (a : TypeAlias) : TypeAlias :=
  match ahead with
  | .alias b => { a with scope := b.scope, symbol := b.symbol }
  | _ => a

mutual
/-- Opens the scopes of a node, of which `ahead` is what was declared ahead. A module among the statements leaves its
own scope open for what follows it, so the enclosure of the next statement is part of the result. -/
def Node.bind (env : Enclosure) (ahead : Node) : Node → AnalysisM (Node × Enclosure)
  | .missing => throw .missing
  | .module m => do
    let (m, env) ← m.bind
    return (.module m, env)
  | .alias a => do
    let a := ahead.declaredAlias a
    return (.alias { a with sign := ← (a.sign.inScope env.scope : Except Fault _) }, env)
  | .expr e => do return (.expr (← e.bind env ahead.declaredFunc?), env)
  | .sign .missing => throw .missing
  | .sign s => do return (.sign (← (s.inScope env.scope : Except Fault _)), env)
  | .signElem e => do return (.signElem (← (e.inScope env.scope : Except Fault _)), env)
  | .matchCase c => do return (.matchCase (← c.bind env), env)
def Node.bindAll (env : Enclosure) : List Node → List Node → AnalysisM (List Node × Enclosure)
  | ahead :: aheads, n :: ns => do
    let (n, env) ← Node.bind env ahead n
    let (ns, env) ← Node.bindAll env aheads ns
    return (n :: ns, env)
  | _, _ => return ([], env)
def Module.bind : Module → AnalysisM (Module × Enclosure)
  | ⟨token, name, id, statements, _⟩ => do
    let id := if id = "" then Module.generatedId else id
    let scope ← newScope name .module (← get).prelude id
    let aheads ← statements.mapM (Node.declareAhead scope)
    let (statements, env) ← Node.bindAll { scope := scope, module := id } aheads statements
    return (⟨token, name, id, statements, scope⟩, env)
end

end TypeInference
