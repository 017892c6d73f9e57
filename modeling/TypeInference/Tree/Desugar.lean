import TypeInference.Tree.Copy

/-! # Operators as calls

Operators are calls of functions with their names: `a + b` is `+(a, b)` and `not a` is `not(a)`. Desugaring turns them
into these calls, and puts given expressions in the place of identifiers. What is put in is desugared too, but nothing
is replaced in it again.
-/

namespace TypeInference

abbrev Replacements := List (String × Expr)

/-- An argument without a label at the anchor of an expression. -/
def Labelled.positional (token : Token) (value : Expr) : Labelled :=
  { mark := { token := token }, label := "", value := value }

mutual
/-- Turns operators into calls; `replace` tells what becomes of an identifier. -/
def Expr.desugarWith (replace : Ident → Except Fault Expr) : Expr → Except Fault Expr
  | .missing => .ok .missing
  | .func ⟨mark, name, sign, body, scope, inner, symbol, params⟩ => do
    return .func ⟨mark, name, sign, ← body.desugarWith replace, scope, inner, symbol, params⟩
  | .cond mark thenScope elseScope condition thenBranch elseBranch => do
    return .cond mark thenScope elseScope (← condition.desugarWith replace) (← thenBranch.desugarWith replace)
      (← elseBranch.desugarWith replace)
  | .matching mark subject cases => do
    return .matching mark (← subject.desugarWith replace) (← MatchCase.desugarAll replace cases)
  | .letBinding b => .ok (.letBinding b)
  | .binary mark op left right => do
    let first := Labelled.positional (← left.token) (← left.desugarWith replace)
    let second := Labelled.positional (← right.token) (← right.desugarWith replace)
    return .call { token := mark.token } (.ident op) [some first, some second]
  | .unary mark op operand => do
    let only := Labelled.positional (← operand.token) (← operand.desugarWith replace)
    return .call { token := mark.token } (.ident op) [some only]
  | .call mark callee args => do
    return .call mark (← callee.desugarWith replace) (← Labelled.desugarAll replace args)
  | .argument ⟨mark, label, value⟩ => do return .argument ⟨mark, label, ← value.desugarWith replace⟩
  | .tuple mark label elems => do return .tuple mark label (← Labelled.desugarAll replace elems)
  | .element ⟨mark, label, value⟩ => do return .element ⟨mark, label, ← value.desugarWith replace⟩
  | .select mark owner member => do return .select mark (← owner.desugarWith replace) member
  | .ident i => replace i
  | .literal mark value => .ok (.literal mark value)
def Labelled.desugarAll (replace : Ident → Except Fault Expr) : List (Option Labelled) →
    Except Fault (List (Option Labelled))
  | [] => .ok []
  | none :: _ => .error .missing
  | some ⟨mark, label, value⟩ :: rest => do
    return some ⟨mark, label, ← value.desugarWith replace⟩ :: (← Labelled.desugarAll replace rest)
def MatchCase.desugarAll (replace : Ident → Except Fault Expr) :
    List (Option MatchCase) → Except Fault (List (Option MatchCase))
  | [] => .ok []
  | none :: _ => .error .missing
  | some ⟨token, pattern, value, inner⟩ :: rest => do
    return some ⟨token, ← pattern.desugarWith replace, ← value.desugarWith replace, inner⟩
      :: (← MatchCase.desugarAll replace rest)
end

def Ident.keep (i : Ident) : Except Fault Expr := .ok (.ident i)

/-- Puts a desugared copy of its replacement in the place of an identifier that has one. -/
def Ident.replaceBy (rs : Replacements) (i : Ident) : Except Fault Expr :=
  match rs.lookup i.name with
  | some e => do (← e.copy).desugarWith Ident.keep
  | none => .ok (.ident i)

/-- Desugars a statement, which has to be a type alias or an expression. -/
def Node.desugar (rs : Replacements) : Node → Except Fault Node
  | .alias a => .ok (.alias a)
  | .missing | .expr .missing => .error (.unexpectedStatement "<nil>")
  | .expr e => do return .expr (← e.desugarWith (Ident.replaceBy rs))
  | n => .error (.unexpectedStatement ("*ast." ++ n.kind))

def Module.desugar (rs : Replacements) (m : Module) : Except Fault Module := do
  return { m with statements := ← m.statements.mapM (Node.desugar rs) }

end TypeInference
