import TypeInference.Tree.Walk

/-! # Changing trees in place

Applies an effect to the identifiers and to the marks of all expressions of a tree, in source order, and keeps the shape
of the tree. Signatures are left as they are, but a gap in a list of their elements is a fault, as it is everywhere
else.
-/

namespace TypeInference

/-- What is done to identifiers and to the marks of other expressions. -/
structure Changes (m : Type → Type) where
  ident : Ident → m Ident
  mark : Mark → m Mark

def Sign.check (s : Sign) : Except Fault Unit := do
  let _ ← s.walk (fun _ => true) 0

variable {m : Type → Type} [Monad m] [MonadLiftT (Except Fault) m]

def gap {α : Type} : m α := liftM (.error .missing : Except Fault α)

mutual
def Expr.change (c : Changes m) : Expr → m Expr
  | .missing => return .missing
  | .func ⟨mark, name, sign, body, scope, inner, symbol, params⟩ => do
    let mark ← c.mark mark
    if let some s := sign then liftM (Sign.func s).check
    return .func ⟨mark, name, sign, ← body.change c, scope, inner, symbol, params⟩
  | .cond mark thenScope elseScope condition thenBranch elseBranch => do
    return .cond (← c.mark mark) thenScope elseScope (← condition.change c) (← thenBranch.change c)
      (← elseBranch.change c)
  | .matching mark subject cases => do
    return .matching (← c.mark mark) (← subject.change c) (← MatchCase.changeAll c cases)
  | .letBinding b => do return .letBinding { b with mark := ← c.mark b.mark }
  | .binary mark op left right => do
    return .binary (← c.mark mark) (← c.ident op) (← left.change c) (← right.change c)
  | .unary mark op operand => do return .unary (← c.mark mark) (← c.ident op) (← operand.change c)
  | .call mark callee args => do
    return .call (← c.mark mark) (← callee.change c) (← Labelled.changeAll c args)
  | .argument ⟨mark, label, value⟩ => do return .argument ⟨← c.mark mark, label, ← value.change c⟩
  | .tuple mark label elems => do return .tuple (← c.mark mark) label (← Labelled.changeAll c elems)
  | .element ⟨mark, label, value⟩ => do return .element ⟨← c.mark mark, label, ← value.change c⟩
  | .select mark owner member => do return .select (← c.mark mark) (← owner.change c) member
  | .ident i => do return .ident (← c.ident i)
  | .literal mark value => do return .literal (← c.mark mark) value
def Labelled.changeAll (c : Changes m) : List (Option Labelled) → m (List (Option Labelled))
  | [] => return []
  | none :: _ => gap
  | some ⟨mark, label, value⟩ :: rest => do
    return some ⟨← c.mark mark, label, ← value.change c⟩ :: (← Labelled.changeAll c rest)
def MatchCase.changeAll (c : Changes m) : List (Option MatchCase) → m (List (Option MatchCase))
  | [] => return []
  | none :: _ => gap
  | some ⟨token, pattern, value, inner⟩ :: rest => do
    return some ⟨token, ← pattern.change c, ← value.change c, inner⟩ :: (← MatchCase.changeAll c rest)
end

mutual
def Node.change (c : Changes m) : Node → m Node
  | .missing => return .missing
  | .module x => do return .module (← x.change c)
  | .alias a => do
    liftM a.sign.check
    return .alias a
  | .expr e => do return .expr (← e.change c)
  | .sign s => do
    liftM s.check
    return .sign s
  | .signElem e => do
    liftM e.sign.check
    return .signElem e
  | .matchCase x => do
    return .matchCase { x with pattern := ← x.pattern.change c, value := ← x.value.change c }
def Node.changeAll (c : Changes m) : List Node → m (List Node)
  | [] => return []
  | n :: ns => do return (← n.change c) :: (← Node.changeAll c ns)
def Module.change (c : Changes m) : Module → m Module
  | ⟨token, name, id, statements, scope⟩ => do return ⟨token, name, id, ← Node.changeAll c statements, scope⟩
end

end TypeInference
