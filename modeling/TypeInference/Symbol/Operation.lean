import TypeInference.Symbol.Table

/-! # Operations in place

The operations on a table that is kept in one place and changed step by step, in the order in which the steps are taken:
a step that cannot be taken stops the operation, and what was done before it stays done.
-/

namespace TypeInference.SymbolTable

/-- A computation that changes a table in place. -/
abbrev UpdateM := ExceptT Fault (StateM SymbolTable)

namespace UpdateM

def addScope (name : String) (kind : ScopeKind) (parent : ScopeId) (module : String) : UpdateM ScopeId := do
  let (t, id) := (← get).addScope name kind parent module
  set t
  return id

def changeScope (id : ScopeId) (f : Scope → Scope) : UpdateM Unit :=
  modify fun t => { t with scopes := t.scopes.modify id.toNat f }

/-- Gives a name that is new in a scope its place in the order of the names. A name that has symbols keeps its place,
and all of its symbols have to be overloadable, with the one to come. -/
def claimName (scope : ScopeId) (name : String) (overloadable : Bool) (existing : List SymbolId) : UpdateM Unit :=
  if existing.isEmpty then changeScope scope fun s => { s with ordered := s.ordered ++ [name] }
  else if overloadable then do
    if ← (← get).allOverloadable existing then return
    throw (.declaredOnce name scope)
  else throw (.redeclared name scope)

def enterSymbol (scope : ScopeId) (name : String) (type : Ty) (overloadable : Bool) : UpdateM SymbolId := do
  let id : SymbolId := (← get).symbols.size
  let symbol : Symbol := { id := id, name := name, type := type, overloadable := overloadable, scope := scope }
  modify fun t => { t with symbols := t.symbols.push symbol }
  changeScope scope fun s => { s with names := Scope.addName name id s.names }
  return id

def declare (scope : ScopeId) (name : String) (type : Ty) (overloadable : Bool) : UpdateM SymbolId := do
  let s ← (← get).scope scope
  claimName scope name overloadable (s.symbolsOf name)
  enterSymbol scope name type overloadable

def setType (id : SymbolId) (type : Ty) : UpdateM Unit := do
  let _ ← (← get).symbol id
  modify fun t => { t with symbols := t.symbols.modify id.toNat fun s => { s with type := type } }

def copySymbols (dst : ScopeId) (name : String) : Renumbering → List SymbolId → UpdateM Renumbering
  | renumbering, [] => return renumbering
  | renumbering, old :: rest => do
    let s ← (← get).symbol old
    let new ← declare dst name s.type s.overloadable
    copySymbols dst name (renumbering ++ [(old, new)]) rest

def copyNames (dst : ScopeId) (src : Scope) : Renumbering → List String → UpdateM Renumbering
  | renumbering, [] => return renumbering
  | renumbering, name :: rest => do
    copyNames dst src (← copySymbols dst name renumbering (src.symbolsOf name)) rest

/-- Copies a scope into the copy of its parent, which is made first; the first argument bounds the number of scopes. -/
def copyChain : Nat → ScopeId → UpdateM (Renumbering × ScopeId)
  | 0, _ => throw .outOfSteps
  | fuel + 1, id => do
    if id = noScope then return ([], noScope)
    let src ← (← get).scope id
    let (renumbering, parent) ← copyChain fuel src.parent
    let dst ← addScope src.name src.kind parent src.module
    return (← copyNames dst src renumbering src.ordered, dst)

def copyScope (scope : ScopeId) : UpdateM (Renumbering × ScopeId) := do
  copyChain ((← get).scopes.size + 1) scope

end UpdateM

inductive Operation where
  | addScope (name : String) (kind : ScopeKind) (parent : ScopeId) (module : String)
  | declare (scope : ScopeId) (name : String) (type : Ty) (overloadable : Bool)
  | setType (id : SymbolId) (type : Ty)
  | copyScope (scope : ScopeId)
deriving DecidableEq, Repr

namespace Operation

def perform : Operation → UpdateM Unit
  | .addScope name kind parent module => discard (UpdateM.addScope name kind parent module)
  | .declare scope name type overloadable => discard (UpdateM.declare scope name type overloadable)
  | .setType id type => UpdateM.setType id type
  | .copyScope scope => discard (UpdateM.copyScope scope)

def after (op : Operation) (t : SymbolTable) : SymbolTable := (op.perform.run t).2

def afterAll (ops : List Operation) (t : SymbolTable) : SymbolTable := ops.foldl (fun t op => op.after t) t

end Operation

end TypeInference.SymbolTable
