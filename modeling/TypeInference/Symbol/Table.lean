import TypeInference.Types.Basic

/-! # Scopes and symbols

A table numbers the scopes and the symbols of an analysis. A scope has the symbols of its names, and a list of the names
in the order of their first declaration; a name may have several symbols only if all of them are overloadable. Scopes
are nested by the number of their parent, which `lookup` follows outward.
-/

namespace TypeInference

inductive ScopeKind where
  | prelude
  | module
  | function
  | branch
  | matchCase
  | other
deriving DecidableEq, Repr, Inhabited

namespace ScopeKind

def text : ScopeKind → String
  | .prelude => "prelude"
  | .module => "module"
  | .function => "function"
  | .branch => "branch"
  | .matchCase => "case"
  | .other => "scope"

def ofInt : Int → ScopeKind
  | 0 => .prelude
  | 1 => .module
  | 2 => .function
  | 3 => .branch
  | 4 => .matchCase
  | _ => .other

end ScopeKind

/-- The number of a scope; `-1` is none. -/
abbrev ScopeId := Int

/-- The number of a symbol; `-1` is none. -/
abbrev SymbolId := Int

def noScope : ScopeId := -1
def noSymbol : SymbolId := -1

structure Scope where
  id : ScopeId
  name : String
  kind : ScopeKind
  parent : ScopeId
  /-- The identifier of the module that owns the scope. -/
  module : String
  names : List (String × List SymbolId) := []
  /-- The names in the order of their first declaration. -/
  ordered : List String := []
deriving DecidableEq, Repr, Inhabited

namespace Scope

def symbolsOf (s : Scope) (name : String) : List SymbolId := (s.names.lookup name).getD []

/-- The name of the scope in a path: that of its kind if it has none. -/
def label (s : Scope) : String := if s.name = "" then s.kind.text else s.name

def addName (name : String) (id : SymbolId) : List (String × List SymbolId) → List (String × List SymbolId)
  | [] => [(name, [id])]
  | (n, ids) :: rest => if n = name then (n, ids ++ [id]) :: rest else (n, ids) :: addName name id rest

/-- The names in their order, with one more if it is new. -/
def orderedWith (s : Scope) (name : String) : List String :=
  if (s.symbolsOf name).isEmpty then s.ordered ++ [name] else s.ordered

def add (s : Scope) (name : String) (id : SymbolId) : Scope :=
  { s with names := addName name id s.names, ordered := s.orderedWith name }

end Scope

structure Symbol where
  id : SymbolId
  name : String
  type : Ty
  overloadable : Bool
  scope : ScopeId
deriving DecidableEq, Repr, Inhabited

structure SymbolTable where
  scopes : Array Scope := #[]
  symbols : Array Symbol := #[]
deriving DecidableEq, Repr, Inhabited

namespace SymbolTable

/-- The element of a number, which has to exist. -/
def element {α : Type} (xs : Array α) (id : Int) : Except Fault α :=
  if id < 0 then .error .missing
  else
    match xs[id.toNat]? with
    | some x => .ok x
    | none => .error .missing

def scope (t : SymbolTable) (id : ScopeId) : Except Fault Scope := element t.scopes id

def symbol (t : SymbolTable) (id : SymbolId) : Except Fault Symbol := element t.symbols id

/-- Opens a scope in a parent, which need not exist yet. -/
def addScope (t : SymbolTable) (name : String) (kind : ScopeKind) (parent : ScopeId) (module : String) :
    SymbolTable × ScopeId :=
  let id : ScopeId := t.scopes.size
  ({ t with scopes := t.scopes.push { id := id, name := name, kind := kind, parent := parent, module := module } }, id)

def lookupLocal (t : SymbolTable) (scope : ScopeId) (name : String) : Except Fault (List SymbolId) := do
  return (← t.scope scope).symbolsOf name

def defines (t : SymbolTable) (scope : ScopeId) (name : String) : Except Fault Bool := do
  return !(← t.lookupLocal scope name).isEmpty

def allOverloadable (t : SymbolTable) (ids : List SymbolId) : Except Fault Bool :=
  ids.allM fun id => do return (← t.symbol id).overloadable

/-- Whether `declare` accepts the declaration. -/
def canDeclare (t : SymbolTable) (scope : ScopeId) (name : String) (overloadable : Bool) : Except Fault Bool := do
  let existing ← t.lookupLocal scope name
  if existing.isEmpty then return true
  if !overloadable then return false
  t.allOverloadable existing

/-- Declares a name in a scope. A name with several symbols needs all of them to be overloadable. -/
def declare (t : SymbolTable) (scope : ScopeId) (name : String) (type : Ty) (overloadable : Bool) :
    Except Fault (SymbolTable × SymbolId) := do
  let s ← t.scope scope
  let existing := s.symbolsOf name
  if !existing.isEmpty then
    if !overloadable then throw (.redeclared name scope)
    if !(← t.allOverloadable existing) then throw (.declaredOnce name scope)
  let id : SymbolId := t.symbols.size
  return ({ scopes := t.scopes.setIfInBounds scope.toNat (s.add name id)
            symbols := t.symbols.push
              { id := id, name := name, type := type, overloadable := overloadable, scope := scope } },
    id)

def setType (t : SymbolTable) (id : SymbolId) (type : Ty) : Except Fault SymbolTable := do
  let s ← t.symbol id
  return { t with symbols := t.symbols.setIfInBounds id.toNat { s with type := type } }

/-- The scopes from a scope to its root, innermost first; the first argument bounds their number. -/
def chainAux (t : SymbolTable) : Nat → ScopeId → Except Fault (List Scope)
  | 0, _ => .error .outOfSteps
  | fuel + 1, id =>
    if id = noScope then .ok []
    else do
      let s ← t.scope id
      return s :: (← chainAux t fuel s.parent)

def chain (t : SymbolTable) (id : ScopeId) : Except Fault (List Scope) :=
  t.chainAux (t.scopes.size + 1) id

/-- The symbols of the innermost scope that declares the name, from `id` outward; the first argument bounds the
number of scopes. -/
def lookupAux (t : SymbolTable) (name : String) : Nat → ScopeId → Except Fault (List SymbolId)
  | 0, _ => .error .outOfSteps
  | fuel + 1, id =>
    if id = noScope then .ok []
    else do
      let s ← t.scope id
      let ids := s.symbolsOf name
      if ids.isEmpty then lookupAux t name fuel s.parent else return ids

/-- The symbols of the innermost scope that declares the name. Inner declarations hide outer ones. -/
def lookup (t : SymbolTable) (scope : ScopeId) (name : String) : Except Fault (List SymbolId) :=
  t.lookupAux name (t.scopes.size + 1) scope

def path (t : SymbolTable) (scope : ScopeId) : Except Fault String := do
  return "/".intercalate ((← t.chain scope).reverse.map Scope.label)

/-! ### Copies of scopes -/

/-- Old and new numbers of copied symbols. -/
abbrev Renumbering := List (SymbolId × SymbolId)

def copySymbols (dst : ScopeId) (name : String) :
    SymbolTable × Renumbering → List SymbolId → Except Fault (SymbolTable × Renumbering)
  | acc, [] => .ok acc
  | (t, renumbering), old :: rest => do
    let s ← t.symbol old
    let (t, new) ← t.declare dst name s.type s.overloadable
    copySymbols dst name (t, renumbering ++ [(old, new)]) rest

def copyNames (dst : ScopeId) (src : Scope) :
    SymbolTable × Renumbering → List String → Except Fault (SymbolTable × Renumbering)
  | acc, [] => .ok acc
  | acc, name :: rest => do
    copyNames dst src (← copySymbols dst name acc (src.symbolsOf name)) rest

/-- Copies scopes, given from the root inward, each into the copy of the one before. -/
def copyChain : SymbolTable × Renumbering → ScopeId → List Scope →
    Except Fault (SymbolTable × Renumbering × ScopeId)
  | (t, renumbering), parent, [] => .ok (t, renumbering, parent)
  | (t, renumbering), parent, s :: rest => do
    let (t, dst) := t.addScope s.name s.kind parent s.module
    let acc ← copyNames dst s (t, renumbering) s.ordered
    copyChain acc dst rest

/-- Copies a scope and the scopes around it. The symbols of the copy are new; the result tells which is a copy of
which. -/
def copyScope (t : SymbolTable) (scope : ScopeId) : Except Fault (SymbolTable × Renumbering × ScopeId) := do
  copyChain (t, []) noScope (← t.chain scope).reverse

end SymbolTable

end TypeInference
