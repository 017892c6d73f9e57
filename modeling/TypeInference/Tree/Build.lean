import TypeInference.Tree.Basic
import TypeInference.Number.Shortest

/-! # Building trees

Nodes that are put together by hand. Their anchors have a text and no position.
-/

namespace TypeInference

def Token.ofLexeme (lexeme : String) : Token := { lexeme := lexeme }

namespace Ident

def ofName (name : String) : Ident := { mark := { token := .ofLexeme name }, name := name }

end Ident

namespace Constant

def text : Constant → String
  | .int value => toString value
  | .float bits => Binary64.text bits
  | .bool value => if value then "true" else "false"
  | .string value => Text.quote value

end Constant

namespace SignElem

def build (label name : String) (sign : Sign) : SignElem := ⟨.ofLexeme name, label, name, sign⟩

end SignElem

namespace TupleSign

def build (label : String) (elems : List (Option SignElem)) : TupleSign := ⟨.ofLexeme ("#" ++ label), label, elems⟩

end TupleSign

namespace FuncSign

def build (codomain : Sign) (params : List (Option SignElem)) : FuncSign :=
  ⟨.ofLexeme "->", some (.build "" params), codomain⟩

end FuncSign

namespace Sign

def ofName (name : String) : Sign := .name { token := .ofLexeme name, name := name }

def ofCases (cases : List Sign) : Sign := .union (.ofLexeme "or") cases

end Sign

namespace Labelled

/-- An argument or element at the anchor of its value, which must not be missing. -/
def build (label : String) (value : Expr) : Except Fault Labelled := do
  return { mark := { token := ← value.token }, label := label, value := value }

end Labelled

namespace MatchCase

def build (pattern value : Expr) : MatchCase := { token := .ofLexeme "with", pattern := pattern, value := value }

end MatchCase

namespace Expr

def newMark (lexeme : String) : Mark := { token := .ofLexeme lexeme }

def ofConstant (value : Constant) : Expr := .literal (newMark value.text) value

def ofLet (name : String) : Expr := .letBinding { mark := newMark "let", name := name }

def ofName (name : String) : Expr := .ident (.ofName name)

def buildFunc (name : String) (sign : Option FuncSign) (body : Expr) : Expr :=
  .func { mark := newMark name, name := name, sign := sign, body := body }

def buildCond (condition thenBranch elseBranch : Expr) : Expr :=
  .cond (newMark "if") noScope noScope condition thenBranch elseBranch

def buildMatch (subject : Expr) (cases : List (Option MatchCase)) : Expr := .matching (newMark "match") subject cases

def buildBinary (op : String) (left right : Expr) : Expr := .binary (newMark op) (.ofName op) left right

def buildUnary (op : String) (operand : Expr) : Expr := .unary (newMark op) (.ofName op) operand

/-- A call at the anchor of its callee, which must not be missing. -/
def buildCall (callee : Expr) (args : List (Option Labelled)) : Except Fault Expr := do
  return .call { token := ← callee.token } callee args

def buildTuple (label : String) (elems : List (Option Labelled)) : Expr := .tuple (newMark ("#" ++ label)) label elems

def buildSelect (owner : Expr) (member : Member) : Expr := .select (newMark ("." ++ member.text)) owner member

end Expr

namespace TypeAlias

def build (name : String) (sign : Sign) : TypeAlias := { token := .ofLexeme name, name := name, sign := sign }

end TypeAlias

namespace Module

def build (name : String) (statements : List Node) : Module :=
  { token := .ofLexeme name, name := name, statements := statements }

end Module

/-! ### Anchors of built nodes -/

namespace Expr

def mapMark (f : Mark → Mark) : Expr → Expr
  | .missing => .missing
  | .func x => .func { x with mark := f x.mark }
  | .cond mark thenScope elseScope condition thenBranch elseBranch =>
    .cond (f mark) thenScope elseScope condition thenBranch elseBranch
  | .matching mark subject cases => .matching (f mark) subject cases
  | .letBinding b => .letBinding { b with mark := f b.mark }
  | .binary mark op left right => .binary (f mark) op left right
  | .unary mark op operand => .unary (f mark) op operand
  | .call mark callee args => .call (f mark) callee args
  | .argument a => .argument { a with mark := f a.mark }
  | .tuple mark label elems => .tuple (f mark) label elems
  | .element e => .element { e with mark := f e.mark }
  | .select mark owner member => .select (f mark) owner member
  | .ident i => .ident { i with mark := f i.mark }
  | .literal mark value => .literal (f mark) value

end Expr

namespace Node

def mapToken (f : Token → Token) : Node → Node
  | .missing => .missing
  | .module m => .module { m with token := f m.token }
  | .alias a => .alias { a with token := f a.token }
  | .expr e => .expr (e.mapMark fun mark => { mark with token := f mark.token })
  | .sign s =>
    match s with
    | .missing => .sign .missing
    | .name n => .sign (.name { n with token := f n.token })
    | .func x => .sign (.func { x with token := f x.token })
    | .tuple t => .sign (.tuple { t with token := f t.token })
    | .union token cases => .sign (.union (f token) cases)
  | .signElem e => .signElem { e with token := f e.token }
  | .matchCase c => .matchCase { c with token := f c.token }

end Node

end TypeInference
