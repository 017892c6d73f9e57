import Mathlib.Data.List.Forall2
import TypeInference.Tree.Build
import TypeInference.Tree.Decode

/-! # Modules written as documents

`WrittenAs` relates a tree to the values that stand for it: expressions and signatures are mappings with one key, which
names what they are, and below it a mapping with the parts, in any order. A part that is empty can be left out, and
there are short forms for elements without a label and for functions that are statements. `bare` takes the anchors out
of a tree: it keeps all that a document says. -/

namespace TypeInference

open Document (Value)

/-! ### Values -/

namespace Document.Value

def IsScalar (v : Value) (text : String) : Prop := ∃ place style, v = .scalar place text style

def IsSequence (v : Value) (items : List Value) : Prop := ∃ place, v = .sequence place items

/-- The value is a mapping with these keys and values, in any order. -/
def IsMapping (v : Value) (entries : List (String × Value)) : Prop :=
  ∃ place written, v = .mapping place written ∧ (written.map fun e => (e.1.text, e.2)).Perm entries

/-- The parts that are there. -/
def given : List (String × Option Value) → List (String × Value)
  | [] => []
  | (_, none) :: rest => given rest
  | (key, some v) :: rest => (key, v) :: given rest

/-- The value is a mapping with one key, and below it a mapping with those of the parts that are there. -/
def IsRecord (v : Value) (key : String) (parts : List (String × Option Value)) : Prop :=
  ∃ body, v.IsMapping [(key, body)] ∧ body.IsMapping (given parts)

/-- A text that can be left out if it is empty. -/
def IsText (v : Option Value) (text : String) : Prop := v.elim (text = "") fun v => v.IsScalar text

/-- A sequence that can be left out if it is empty. -/
def IsItems (v : Option Value) (items : List Value) : Prop := v.elim (items = []) fun v => v.IsSequence items

end Document.Value

open Document.Value (given IsText IsItems)

/-! ### Signatures -/

/-- The empty tuple, which a function returns if nothing else is written. -/
def Sign.IsUnit (s : Sign) : Prop := ∃ token, s = .tuple ⟨token, "", []⟩

mutual
def Sign.WrittenAs : Sign → Value → Prop
  | .missing, _ => False
  | .name n, v => n.scope = noScope ∧ n.metatype = .absent ∧ v.IsScalar n.name
  | .func f, v => f.WrittenAs v
  | .tuple t, v => ∃ body, v.IsMapping [("tuple", body)] ∧ t.WrittenAs body
  | .union _ cases, v => ∃ body items, v.IsMapping [("union", body)] ∧ body.IsSequence items ∧
    Sign.AllWrittenAs cases items
def Sign.AllWrittenAs : List Sign → List Value → Prop
  | [], vs => vs = []
  | s :: ss, vs => ∃ v rest, vs = v :: rest ∧ s.WrittenAs v ∧ Sign.AllWrittenAs ss rest
def FuncSign.WrittenAs : FuncSign → Value → Prop
  | ⟨_, none, _⟩, _ => False
  | ⟨_, some ⟨_, label, elems⟩, codomain⟩, v => label = "" ∧ ∃ params items returns,
    v.IsRecord "func" [("params", params), ("returns", returns)] ∧ IsItems params items ∧
    SignElem.AllWrittenAs elems items ∧ returns.elim codomain.IsUnit fun r => codomain.WrittenAs r
def TupleSign.WrittenAs : TupleSign → Value → Prop
  | ⟨_, label, elems⟩, v => ∃ l es items,
    v.IsMapping (given [("label", l), ("elements", es)]) ∧ IsText l label ∧ IsItems es items ∧
    SignElem.AllWrittenAs elems items
/-- An element has no name. It is written with its label, or as its type if it has none. -/
def SignElem.WrittenAs : SignElem → Value → Prop
  | ⟨_, label, name, sign⟩, v => name = "" ∧ ((label = "" ∧ sign.WrittenAs v) ∨
    ∃ l t, v.IsMapping (given [("label", l), ("type", some t)]) ∧ IsText l label ∧ sign.WrittenAs t)
def SignElem.AllWrittenAs : List (Option SignElem) → List Value → Prop
  | [], vs => vs = []
  | none :: _, _ => False
  | some e :: es, vs => ∃ v rest, vs = v :: rest ∧ e.WrittenAs v ∧ SignElem.AllWrittenAs es rest
end

/-- A parameter has a name and a label. -/
def SignElem.DeclaredAs (e : SignElem) (v : Value) : Prop :=
  ∃ n l t, v.IsMapping (given [("name", n), ("label", l), ("type", some t)]) ∧ IsText n e.name ∧ IsText l e.label ∧
    e.sign.WrittenAs t

/-- The signature of a function that is declared, from its parameters and what it returns. -/
def FuncSign.DeclaredAs : Option FuncSign → Option Value → Option Value → Prop
  | some ⟨_, some ⟨_, label, elems⟩, codomain⟩, params, returns => label = "" ∧
    (∃ items, IsItems params items ∧ List.Forall₂ (fun e v => ∃ x, e = some x ∧ x.DeclaredAs v) elems items) ∧
    returns.elim codomain.IsUnit codomain.WrittenAs
  | _, _, _ => False

/-! ### Expressions -/

def Constant.key : Constant → String
  | .int _ => "int"
  | .float _ => "float"
  | .bool _ => "bool"
  | .string _ => "string"

/-- A text of the value. -/
def Constant.ReadFrom : Constant → String → Prop
  | .int value, text => Literal.int? text = some value
  | .float bits, text => Literal.float? text = some bits
  | .bool value, text => Literal.bool? text = some value
  | .string value, text => value = text

/-- A selection is by a label that is not empty or by a number that is not negative. -/
def Member.WrittenAs : Member → Option Value → Option Value → Prop
  | .label name, l, i => name ≠ "" ∧ i = none ∧ ∃ v ∈ l, v.IsScalar name
  | .index number, l, i => 0 ≤ number ∧ l = none ∧ ∃ v ∈ i, ∃ text, v.IsScalar text ∧ Literal.int? text = some number

def Ident.Unbound (i : Ident) : Prop := i.mark.type = .absent ∧ i.scope = noScope ∧ i.candidates = [] ∧
    i.symbol = noSymbol

def LetBinding.Unbound (b : LetBinding) : Prop := b.mark.type = .absent ∧ b.scope = noScope ∧ b.symbol = noSymbol

def Func.Unbound (f : Func) : Prop :=
  f.mark.type = .absent ∧ f.scope = noScope ∧ f.inner = noScope ∧ f.symbol = noSymbol ∧ f.params = []

mutual
def Expr.WrittenAs : Expr → Value → Prop
  | .missing, _ | .argument _, _ | .element _, _ => False
  | .func ⟨mark, name, sign, body, scope, inner, symbol, params⟩, v =>
    Func.Unbound ⟨mark, name, sign, body, scope, inner, symbol, params⟩ ∧ ∃ n ps r b,
    v.IsRecord "func" [("name", n), ("params", ps), ("returns", r), ("body", some b)] ∧ IsText n name ∧
    FuncSign.DeclaredAs sign ps r ∧ body.WrittenAs b
  | .cond mark thenScope elseScope condition thenBranch elseBranch, v =>
    (mark.type = .absent ∧ thenScope = noScope ∧ elseScope = noScope) ∧ ∃ c t e,
    v.IsRecord "if" [("cond", some c), ("then", some t), ("else", some e)] ∧
    condition.WrittenAs c ∧ thenBranch.WrittenAs t ∧ elseBranch.WrittenAs e
  | .matching mark subject cases, v => mark.type = .absent ∧ ∃ s cs items,
    v.IsRecord "match" [("subject", some s), ("cases", cs)] ∧ subject.WrittenAs s ∧ IsItems cs items ∧
    MatchCase.AllWrittenAs cases items
  | .letBinding b, v => b.Unbound ∧ ∃ body, v.IsMapping [("let", body)] ∧ body.IsScalar b.name
  | .binary mark op left right, v => (mark.type = .absent ∧ op.Unbound) ∧ ∃ o l r,
    v.IsRecord "binary" [("op", some o), ("left", some l), ("right", some r)] ∧ o.IsScalar op.name ∧
    left.WrittenAs l ∧ right.WrittenAs r
  | .unary mark op operand, v => (mark.type = .absent ∧ op.Unbound) ∧ ∃ o x,
    v.IsRecord "unary" [("op", some o), ("operand", some x)] ∧ o.IsScalar op.name ∧ operand.WrittenAs x
  | .call mark callee args, v => mark.type = .absent ∧ ∃ c as items,
    v.IsRecord "call" [("callee", some c), ("args", as)] ∧ callee.WrittenAs c ∧ IsItems as items ∧
    Labelled.AllWrittenAs args items
  | .tuple mark label elems, v => mark.type = .absent ∧ ∃ l es items,
    v.IsRecord "tuple" [("label", l), ("elements", es)] ∧ IsText l label ∧ IsItems es items ∧
    Labelled.AllWrittenAs elems items
  | .select mark owner member, v => mark.type = .absent ∧ ∃ o l i,
    v.IsRecord "select" [("owner", some o), ("label", l), ("index", i)] ∧ owner.WrittenAs o ∧ member.WrittenAs l i
  | .ident i, v => i.Unbound ∧ ∃ body, v.IsMapping [("ident", body)] ∧ body.IsScalar i.name
  | .literal mark value, v => mark.type = .absent ∧ ∃ body text,
    v.IsMapping [(value.key, body)] ∧ body.IsScalar text ∧ value.ReadFrom text
/-- An argument or element is written with its label, or as its value if it has none. -/
def Labelled.WrittenAs : Labelled → Value → Prop
  | ⟨mark, label, value⟩, v => mark.type = .absent ∧ ((label = "" ∧ value.WrittenAs v) ∨
    ∃ l x, v.IsMapping (given [("label", l), ("value", some x)]) ∧ IsText l label ∧ value.WrittenAs x)
def Labelled.AllWrittenAs : List (Option Labelled) → List Value → Prop
  | [], vs => vs = []
  | none :: _, _ => False
  | some x :: xs, vs => ∃ v rest, vs = v :: rest ∧ x.WrittenAs v ∧ Labelled.AllWrittenAs xs rest
def MatchCase.WrittenAs : MatchCase → Value → Prop
  | ⟨_, pattern, value, inner⟩, v => inner = noScope ∧ ∃ p x,
    v.IsMapping (given [("pattern", some p), ("value", some x)]) ∧ pattern.WrittenAs p ∧ value.WrittenAs x
def MatchCase.AllWrittenAs : List (Option MatchCase) → List Value → Prop
  | [], vs => vs = []
  | none :: _, _ => False
  | some c :: cs, vs => ∃ v rest, vs = v :: rest ∧ c.WrittenAs v ∧ MatchCase.AllWrittenAs cs rest
end

/-! ### Modules -/

def TypeAlias.WrittenAs (a : TypeAlias) (v : Value) : Prop :=
  a.scope = noScope ∧ a.symbol = noSymbol ∧ ∃ n s,
    v.IsMapping (given [("type", some n), ("is", some s)]) ∧ n.IsScalar a.name ∧ a.sign.WrittenAs s

/-- A function that stands as a statement has its name under `func`. -/
def Func.StatedAs (f : Func) (v : Value) : Prop :=
  f.Unbound ∧ ∃ n ps r b,
    v.IsMapping (given [("func", some n), ("params", ps), ("returns", r), ("body", some b)]) ∧ n.IsScalar f.name ∧
    FuncSign.DeclaredAs f.sign ps r ∧ f.body.WrittenAs b

/-- A statement is a type alias or an expression. -/
def Node.WrittenAs : Node → Value → Prop
  | .alias a, v => a.WrittenAs v
  | .expr e, v => e.WrittenAs v ∨ ∃ f, e = .func f ∧ f.StatedAs v
  | _, _ => False

/-- The name of a module can be left out if it is that of its file. The document may give it any identifier. -/
def Module.WrittenAs (file : String) (m : Module) (v : Value) : Prop :=
  m.scope = noScope ∧ ∃ n id ss items,
    v.IsMapping (given [("module", n), ("id", id), ("statements", ss)]) ∧
    n.elim (m.name = SourceFile.moduleName file) (fun n => n.IsScalar m.name) ∧
    (∀ v ∈ id, ∃ text, v.IsScalar text ∧ ∃ uuid, ModuleId.read text = .ok uuid) ∧
    IsItems ss items ∧ List.Forall₂ Node.WrittenAs m.statements items

/-! ### Trees without anchors -/

mutual
def Sign.bare : Sign → Sign
  | .missing => .missing
  | .name n => .name { n with token := {} }
  | .func f => .func f.bare
  | .tuple t => .tuple t.bare
  | .union _ cases => .union {} (Sign.bareAll cases)
def Sign.bareAll : List Sign → List Sign
  | [] => []
  | s :: ss => s.bare :: Sign.bareAll ss
def FuncSign.bare : FuncSign → FuncSign
  | ⟨_, none, codomain⟩ => ⟨{}, none, codomain.bare⟩
  | ⟨_, some domain, codomain⟩ => ⟨{}, some domain.bare, codomain.bare⟩
def TupleSign.bare : TupleSign → TupleSign
  | ⟨_, label, elems⟩ => ⟨{}, label, SignElem.bareAll elems⟩
def SignElem.bare : SignElem → SignElem
  | ⟨_, label, name, sign⟩ => ⟨{}, label, name, sign.bare⟩
def SignElem.bareAll : List (Option SignElem) → List (Option SignElem)
  | [] => []
  | none :: es => none :: SignElem.bareAll es
  | some e :: es => some e.bare :: SignElem.bareAll es
end

def Mark.bare (m : Mark) : Mark := { m with token := {} }

def Ident.bare (i : Ident) : Ident := { i with mark := i.mark.bare }

mutual
def Expr.bare : Expr → Expr
  | .missing => .missing
  | .func ⟨mark, name, sign, body, scope, inner, symbol, params⟩ =>
    .func ⟨mark.bare, name, sign.map FuncSign.bare, body.bare, scope, inner, symbol, params⟩
  | .cond mark thenScope elseScope condition thenBranch elseBranch =>
    .cond mark.bare thenScope elseScope condition.bare thenBranch.bare elseBranch.bare
  | .matching mark subject cases => .matching mark.bare subject.bare (MatchCase.bareAll cases)
  | .letBinding b => .letBinding { b with mark := b.mark.bare }
  | .binary mark op left right => .binary mark.bare op.bare left.bare right.bare
  | .unary mark op operand => .unary mark.bare op.bare operand.bare
  | .call mark callee args => .call mark.bare callee.bare (Labelled.bareAll args)
  | .argument a => .argument a.bare
  | .tuple mark label elems => .tuple mark.bare label (Labelled.bareAll elems)
  | .element e => .element e.bare
  | .select mark owner member => .select mark.bare owner.bare member
  | .ident i => .ident i.bare
  | .literal mark value => .literal mark.bare value
def Labelled.bare : Labelled → Labelled
  | ⟨mark, label, value⟩ => ⟨mark.bare, label, value.bare⟩
def Labelled.bareAll : List (Option Labelled) → List (Option Labelled)
  | [] => []
  | none :: xs => none :: Labelled.bareAll xs
  | some x :: xs => some x.bare :: Labelled.bareAll xs
def MatchCase.bare : MatchCase → MatchCase
  | ⟨_, pattern, value, inner⟩ => ⟨{}, pattern.bare, value.bare, inner⟩
def MatchCase.bareAll : List (Option MatchCase) → List (Option MatchCase)
  | [] => []
  | none :: cs => none :: MatchCase.bareAll cs
  | some c :: cs => some c.bare :: MatchCase.bareAll cs
end

def Node.bare : Node → Node
  | .alias a => .alias { a with token := {}, sign := a.sign.bare }
  | .expr e => .expr e.bare
  | n => n

/-- A module without anchors and without its identifier. -/
def Module.bare (m : Module) : Module := { m with token := {}, id := "", statements := m.statements.map Node.bare }

end TypeInference
