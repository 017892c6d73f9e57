import TypeInference.Analysis.Context
import TypeInference.Tree.Build

/-! # Obligations

Gives every expression of a module a type and records the constraints that the types have to satisfy. Operators have to
be calls by now, and names have to know their scopes.
-/

namespace TypeInference

open AnalysisM

namespace AnalysisM

/-- The type of a symbol; that of no symbol is the error type. -/
def symbolType (id : SymbolId) : AnalysisM Ty := do
  if id = noSymbol then return .error
  return (← ((← get).table.symbol id : Except Fault _)).type

def meanings (scope : ScopeId) (name : String) : AnalysisM (List SymbolId) := do
  (← get).table.lookup scope name

end AnalysisM

/-! ### Signatures -/

/-- The type that a type name stands for. The name has to have one symbol, which has to be a type. -/
def TypeName.read (n : TypeName) : AnalysisM (TypeName × Ty) := do
  match ← meanings n.scope n.name with
  | [] =>
    diagnose .undefinedSymbol n.token n.name
    return (n, .error)
  | [id] =>
    let c ← get
    let symbol ← (c.table.symbol id : Except Fault _)
    match c.graph.metatype? symbol.type with
    | some type => return ({ n with metatype := symbol.type }, type)
    | none =>
      diagnose .invalidTypeName n.token s!"{n.name} is not a type"
      return (n, .error)
  | ids =>
    diagnose .invalidTypeName n.token s!"{n.name} names {ids.length} symbols"
    return (n, .error)

def unitType : AnalysisM Ty := newType (.tuple "" [])

/-- A new function type; its domain has to be a composite type. -/
def functionType (domain codomain : Ty) : AnalysisM Ty :=
  match domain with
  | .node d => newType (.function (some d) codomain)
  | _ => throw .missing

mutual
/-- The type that a signature stands for, and the signature with its type names resolved. -/
def Sign.read : Sign → AnalysisM (Sign × Ty)
  | .missing => do return (.missing, ← unitType)
  | .name n => do
    let (n, type) ← n.read
    return (.name n, type)
  | .func f => do
    let (f, type) ← f.read
    return (.func f, type)
  | .tuple t => do
    let (t, type) ← t.read
    return (.tuple t, type)
  | .union token cases => do
    let (cases, types) ← Sign.readAll cases
    return (.union token cases, ← newUnion types)
def Sign.readAll : List Sign → AnalysisM (List Sign × List Ty)
  | [] => return ([], [])
  | s :: ss => do
    let (s, type) ← s.read
    let (ss, types) ← Sign.readAll ss
    return (s :: ss, type :: types)
def FuncSign.read : FuncSign → AnalysisM (FuncSign × Ty)
  | ⟨token, none, codomain⟩ => do
    let domainType ← unitType
    let (codomain, codomainType) ← codomain.read
    return (⟨token, none, codomain⟩, ← functionType domainType codomainType)
  | ⟨token, some domain, codomain⟩ => do
    let (domain, domainType) ← domain.read
    let (codomain, codomainType) ← codomain.read
    return (⟨token, some domain, codomain⟩, ← functionType domainType codomainType)
def TupleSign.read : TupleSign → AnalysisM (TupleSign × Ty)
  | ⟨token, label, elems⟩ => do
    let (elems, fields) ← SignElem.readAll elems
    return (⟨token, label, elems⟩, ← newType (.tuple label fields))
def SignElem.readAll : List (Option SignElem) → AnalysisM (List (Option SignElem) × List TupleField)
  | [] => return ([], [])
  | none :: _ => throw .missing
  | some ⟨token, label, name, sign⟩ :: rest => do
    let (sign, type) ← sign.read
    let (rest, fields) ← SignElem.readAll rest
    return (some ⟨token, label, name, sign⟩ :: rest, { label := label, type := type } :: fields)
end

/-! ### Expressions -/

def Mark.location (mark : Mark) (path : List PathStep) : Location := { node := some mark.token, path := path }

namespace Mark

def typed (mark : Mark) (type : Ty) : Mark := { mark with type := type }

end Mark

def Constant.type : Constant → Ty
  | .int _ => .int
  | .float _ => .float
  | .bool _ => .bool
  | .string _ => .string

/-- Types an identifier: equal to its symbol, or to one of its symbols if there are several. -/
def Ident.oblige (i : Ident) : AnalysisM Ident := do
  let ids ← meanings i.scope i.name
  match ids with
  | [] =>
    diagnose .undefinedSymbol i.mark.token i.name
    return { i with candidates := [], mark := i.mark.typed .error }
  | [id] =>
    let type ← fresh
    require (.equality type (← symbolType id) (i.mark.location [.identifier]))
    return { i with candidates := ids, mark := i.mark.typed type, symbol := id }
  | ids =>
    let type ← fresh
    let location := i.mark.location [.identifier]
    let choices ← ids.mapM fun id => do return Constraint.equality type (← symbolType id) location
    require (.oneOf choices location)
    return { i with candidates := ids, mark := i.mark.typed type }

mutual
def Expr.oblige : Expr → AnalysisM Expr
  | .missing => throw .missing
  | .func ⟨mark, name, sign, body, scope, inner, symbol, params⟩ => do
    match (← get).graph.function? mark.type with
    | none => throw (.unboundFunction name)
    | some (_, codomain) =>
      let sign ← match sign with
        | some s => do
          let (s, type) ← s.read
          require (.equality mark.type type (mark.location [.signature]))
          pure (some s)
        | none => pure none
      let body ← match body with
        | .missing => pure .missing
        | body => do
          let body ← body.oblige
          require (.conformance (← (body.type : Except Fault _)) codomain (mark.location [.body]))
          pure body
      return .func ⟨mark, name, sign, body, scope, inner, symbol, params⟩
  | .cond mark thenScope elseScope condition thenBranch elseBranch => do
    let condition ← condition.oblige
    require (.equality (← (condition.type : Except Fault _)) .bool (mark.location [.condition]))
    let thenBranch ← thenBranch.oblige
    let elseBranch ← elseBranch.oblige
    let type ← newUnion [← (thenBranch.type : Except Fault _), ← (elseBranch.type : Except Fault _)]
    return .cond (mark.typed type) thenScope elseScope condition thenBranch elseBranch
  | .matching mark subject cases => do
    let subject ← subject.oblige
    let subjectType ← (subject.type : Except Fault _)
    let (cases, types) ← MatchCase.obligeAll mark subjectType 0 cases
    return .matching (mark.typed (← newUnion types)) subject cases
  | .letBinding b => do return .letBinding { b with mark := b.mark.typed (← symbolType b.symbol) }
  | .binary .. => throw (.operatorLeft .binary)
  | .unary .. => throw (.operatorLeft .unary)
  | .call mark callee args => do
    let (args, fields) ← Labelled.obligeArgs mark 0 args
    let result ← fresh
    let callee ← callee.oblige
    let function ← newFunction fields result
    require (.equality (← (callee.type : Except Fault _)) function (mark.location [.callee]))
    return .call (mark.typed result) callee args
  | .argument ⟨mark, label, value⟩ => do
    let value ← value.oblige
    return .argument ⟨mark.typed (← (value.type : Except Fault _)), label, value⟩
  | .tuple mark label elems => do
    let (elems, fields) ← Labelled.obligeElems elems
    return .tuple (mark.typed (← newType (.tuple label fields))) label elems
  | .element ⟨mark, label, value⟩ => do
    let value ← value.oblige
    return .element ⟨mark.typed (← (value.type : Except Fault _)), label, value⟩
  | .select mark owner member => do
    let owner ← owner.oblige
    let type ← fresh
    require (.member (← (owner.type : Except Fault _)) member type (mark.location [.ofMember member]))
    return .select (mark.typed type) owner member
  | .ident i => do return .ident (← i.oblige)
  | .literal mark value => return .literal (mark.typed value.type) value
/-- Types the arguments of a call from position `i` on. Each conforms to a new variable of the domain. -/
def Labelled.obligeArgs (call : Mark) (i : Nat) :
    List (Option Labelled) → AnalysisM (List (Option Labelled) × List TupleField)
  | [] => return ([], [])
  | none :: _ => throw .missing
  | some ⟨mark, label, value⟩ :: rest => do
    let slot ← fresh
    let value ← value.oblige
    let type ← (value.type : Except Fault _)
    require (.conformance type slot (call.location [.tuple, .element i]))
    let (rest, fields) ← Labelled.obligeArgs call (i + 1) rest
    return (some ⟨mark.typed type, label, value⟩ :: rest, { label := label, type := slot } :: fields)
def Labelled.obligeElems : List (Option Labelled) → AnalysisM (List (Option Labelled) × List TupleField)
  | [] => return ([], [])
  | none :: _ => throw .missing
  | some ⟨mark, label, value⟩ :: rest => do
    let value ← value.oblige
    let type ← (value.type : Except Fault _)
    let (rest, fields) ← Labelled.obligeElems rest
    return (some ⟨mark.typed type, label, value⟩ :: rest, { label := label, type := type } :: fields)
/-- Types the cases of a match from position `i` on. The pattern of each conforms to the subject. -/
def MatchCase.obligeAll (mark : Mark) (subject : Ty) (i : Nat) : List (Option MatchCase) →
    AnalysisM (List (Option MatchCase) × List Ty)
  | [] => return ([], [])
  | none :: _ => throw .missing
  | some ⟨token, pattern, value, inner⟩ :: rest => do
    let pattern ← pattern.oblige
    let value ← value.oblige
    let type ← (value.type : Except Fault _)
    require (.conformance (← (pattern.type : Except Fault _)) subject (mark.location [.pattern i]))
    let (rest, types) ← MatchCase.obligeAll mark subject (i + 1) rest
    return (some ⟨token, pattern, value, inner⟩ :: rest, type :: types)
end

/-! ### Modules -/

def TypeAlias.oblige (a : TypeAlias) : AnalysisM TypeAlias := do
  match a.sign with
  | .missing => return a
  | sign =>
    if a.symbol = noSymbol then return a
    let (sign, type) ← sign.read
    let metatype ← newType (.metatype type)
    require (.equality (← symbolType a.symbol) metatype { node := some a.token, path := [.signature] })
    return { a with sign := sign }

mutual
/-- Types a node of a module. Signatures that stand alone have nothing to type. -/
def Node.oblige : Node → AnalysisM Node
  | .missing => throw .missing
  | .module m => do return .module (← m.oblige)
  | .alias a => do return .alias (← a.oblige)
  | .expr e => do return .expr (← e.oblige)
  | .sign .missing => throw .missing
  | .sign s => return .sign s
  | .signElem e => return .signElem e
  | .matchCase c => do
    return .matchCase { c with pattern := ← c.pattern.oblige, value := ← c.value.oblige }
def Node.obligeAll : List Node → AnalysisM (List Node)
  | [] => return []
  | n :: ns => do return (← n.oblige) :: (← Node.obligeAll ns)
def Module.oblige : Module → AnalysisM Module
  | ⟨token, name, id, statements, scope⟩ => do return ⟨token, name, id, ← Node.obligeAll statements, scope⟩
end

end TypeInference
