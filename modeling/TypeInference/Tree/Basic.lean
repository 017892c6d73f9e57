import TypeInference.Constraint.Basic
import TypeInference.Symbol.Table

/-! # Syntax trees

The statements of a module: type aliases and expressions, with type signatures inside them. Every node has an anchor.
Slots for scopes, symbols and types are empty until an analysis fills them in.

A tree that is put together by hand may lack children; `missing` stands in their place, or `none` in a list of elements,
arguments or cases.
-/

namespace TypeInference

/-! ### Signatures -/

structure TypeName where
  token : Token
  name : String
  scope : ScopeId := noScope
  /-- The type of the type that the name stands for, once that is known. -/
  metatype : Ty := .absent
deriving DecidableEq, Repr, Inhabited

mutual
inductive Sign where
  | missing
  | name (n : TypeName)
  | func (f : FuncSign)
  | tuple (t : TupleSign)
  | union (token : Token) (cases : List Sign)
structure FuncSign where
  token : Token
  domain : Option TupleSign
  codomain : Sign
structure TupleSign where
  token : Token
  label : String
  elems : List (Option SignElem)
/-- An element of a tuple signature; the name is that of a parameter. -/
structure SignElem where
  token : Token
  label : String
  name : String
  sign : Sign
end

instance : Inhabited Sign := ⟨.missing⟩

namespace Sign

def token : Sign → Option Token
  | .missing => none
  | .name n => some n.token
  | .func f => some f.token
  | .tuple t => some t.token
  | .union token _ => some token

end Sign

/-! ### Expressions -/

structure Mark where
  token : Token
  type : Ty := .absent
deriving DecidableEq, Repr, Inhabited

structure Ident where
  mark : Mark
  name : String
  scope : ScopeId := noScope
  candidates : List SymbolId := []
  symbol : SymbolId := noSymbol
deriving DecidableEq, Repr, Inhabited

structure LetBinding where
  mark : Mark
  name : String
  scope : ScopeId := noScope
  symbol : SymbolId := noSymbol
deriving DecidableEq, Repr, Inhabited

/-- The value of a literal. A floating point number is given by its bits. -/
inductive Constant where
  | int (value : Int)
  | float (bits : UInt64)
  | bool (value : Bool)
  | string (value : String)
deriving DecidableEq, Repr, Inhabited

mutual
inductive Expr where
  | missing
  | func (f : Func)
  | cond (mark : Mark) (thenScope elseScope : ScopeId) (condition thenBranch elseBranch : Expr)
  | matching (mark : Mark) (subject : Expr) (cases : List (Option MatchCase))
  | letBinding (b : LetBinding)
  | binary (mark : Mark) (op : Ident) (left right : Expr)
  | unary (mark : Mark) (op : Ident) (operand : Expr)
  | call (mark : Mark) (callee : Expr) (args : List (Option Labelled))
  | argument (a : Labelled)
  | tuple (mark : Mark) (label : String) (elems : List (Option Labelled))
  | element (e : Labelled)
  | select (mark : Mark) (owner : Expr) (member : Member)
  | ident (i : Ident)
  | literal (mark : Mark) (value : Constant)
/-- A function; the name is empty if it has none. -/
structure Func where
  mark : Mark
  name : String
  sign : Option FuncSign
  body : Expr
  scope : ScopeId := noScope
  inner : ScopeId := noScope
  symbol : SymbolId := noSymbol
  params : List SymbolId := []
/-- An argument of a call or an element of a tuple; the label is empty if it has none. -/
structure Labelled where
  mark : Mark
  label : String
  value : Expr
structure MatchCase where
  token : Token
  pattern : Expr
  value : Expr
  inner : ScopeId := noScope
end

instance : Inhabited Expr := ⟨.missing⟩

namespace Expr

def mark? : Expr → Option Mark
  | .missing => none
  | .func f => some f.mark
  | .cond mark .. => some mark
  | .matching mark .. => some mark
  | .letBinding b => some b.mark
  | .binary mark .. => some mark
  | .unary mark .. => some mark
  | .call mark .. => some mark
  | .argument a => some a.mark
  | .tuple mark .. => some mark
  | .element e => some e.mark
  | .select mark .. => some mark
  | .ident i => some i.mark
  | .literal mark _ => some mark

def token (e : Expr) : Except Fault Token :=
  match e.mark? with
  | some mark => .ok mark.token
  | none => .error .missing

def type (e : Expr) : Except Fault Ty :=
  match e.mark? with
  | some mark => .ok mark.type
  | none => .error .missing

end Expr

/-! ### Modules -/

structure TypeAlias where
  token : Token
  name : String
  sign : Sign
  scope : ScopeId := noScope
  symbol : SymbolId := noSymbol

mutual
/-- Any node of a tree. Statements are type aliases and expressions; a module is checked for that when it is
desugared. -/
inductive Node where
  | missing
  | module (m : Module)
  | alias (a : TypeAlias)
  | expr (e : Expr)
  | sign (s : Sign)
  | signElem (e : SignElem)
  | matchCase (c : MatchCase)
/-- A module; the identifier is empty until it has one. -/
structure Module where
  token : Token
  name : String
  id : String := ""
  statements : List Node
  scope : ScopeId := noScope
end

instance : Inhabited Node := ⟨.missing⟩

namespace Node

def kind : Node → String
  | .missing => "<nil>"
  | .module _ => "Module"
  | .alias _ => "TypeAlias"
  | .signElem _ => "TupleSignElem"
  | .matchCase _ => "MatchCase"
  | .sign s =>
    match s with
    | .missing => "<nil>"
    | .name _ => "TypeIdent"
    | .func _ => "FuncSign"
    | .tuple _ => "TupleSign"
    | .union .. => "UnionSign"
  | .expr e =>
    match e with
    | .missing => "<nil>"
    | .func _ => "Func"
    | .cond .. => "If"
    | .matching .. => "Match"
    | .letBinding _ => "LetBinding"
    | .binary .. => "Binary"
    | .unary .. => "Unary"
    | .call .. => "Call"
    | .argument _ => "Arg"
    | .tuple .. => "Tuple"
    | .element _ => "TupleElem"
    | .select .. => "Select"
    | .ident _ => "Ident"
    | .literal _ (.int _) => "IntLiteral"
    | .literal _ (.float _) => "FloatLiteral"
    | .literal _ (.bool _) => "BoolLiteral"
    | .literal _ (.string _) => "StringLiteral"

def token? : Node → Option Token
  | .missing => none
  | .module m => some m.token
  | .alias a => some a.token
  | .expr e => e.mark?.map Mark.token
  | .sign s => s.token
  | .signElem e => some e.token
  | .matchCase c => some c.token

/-- The text that names a node: the name of a module, the text of the anchor otherwise. -/
def literal (n : Node) : String :=
  match n with
  | .module m => m.name
  | n => (n.token?.map Token.lexeme).getD ""

end Node

end TypeInference
