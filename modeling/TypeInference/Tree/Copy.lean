import TypeInference.Tree.Basic

/-! # Copies

A copy of a tree has the anchors, names and labels of the tree, and all the slots of an analysis empty. A tree with a
gap in a list of elements, arguments or cases has none.
-/

namespace TypeInference

namespace Mark

def blank (m : Mark) : Mark := { token := m.token }

end Mark

namespace Ident

def blank (i : Ident) : Ident := { mark := i.mark.blank, name := i.name }

end Ident

mutual
def Sign.blank : Sign → Except Fault Sign
  | .missing => .ok .missing
  | .name n => .ok (.name { token := n.token, name := n.name })
  | .func f => do return .func (← f.blank)
  | .tuple t => do return .tuple (← t.blank)
  | .union token cases => do return .union token (← Sign.blankAll cases)
def Sign.blankAll : List Sign → Except Fault (List Sign)
  | [] => .ok []
  | s :: ss => do return (← s.blank) :: (← Sign.blankAll ss)
def FuncSign.blank : FuncSign → Except Fault FuncSign
  | ⟨token, none, codomain⟩ => do return ⟨token, none, ← codomain.blank⟩
  | ⟨token, some domain, codomain⟩ => do return ⟨token, some (← domain.blank), ← codomain.blank⟩
def TupleSign.blank : TupleSign → Except Fault TupleSign
  | ⟨token, label, elems⟩ => do return ⟨token, label, ← SignElem.blankAll elems⟩
def SignElem.blank : SignElem → Except Fault SignElem
  | ⟨token, label, name, sign⟩ => do return ⟨token, label, name, ← sign.blank⟩
def SignElem.blankAll : List (Option SignElem) → Except Fault (List (Option SignElem))
  | [] => .ok []
  | none :: _ => .error .missing
  | some e :: es => do return some (← e.blank) :: (← SignElem.blankAll es)
end

mutual
def Expr.blank : Expr → Except Fault Expr
  | .missing => .ok .missing
  | .func ⟨mark, name, sign, body, _, _, _, _⟩ => do
    let sign ← match sign with
      | some s => do pure (some (← s.blank))
      | none => pure none
    return .func { mark := mark.blank, name := name, sign := sign, body := ← body.blank }
  | .cond mark _ _ condition thenBranch elseBranch => do
    return .cond mark.blank noScope noScope (← condition.blank) (← thenBranch.blank) (← elseBranch.blank)
  | .matching mark subject cases => do
    return .matching mark.blank (← subject.blank) (← MatchCase.blankAll cases)
  | .letBinding b => .ok (.letBinding { mark := b.mark.blank, name := b.name })
  | .binary mark op left right => do return .binary mark.blank op.blank (← left.blank) (← right.blank)
  | .unary mark op operand => do return .unary mark.blank op.blank (← operand.blank)
  | .call mark callee args => do return .call mark.blank (← callee.blank) (← Labelled.blankAll args)
  | .argument ⟨mark, label, value⟩ => do return .argument ⟨mark.blank, label, ← value.blank⟩
  | .tuple mark label elems => do return .tuple mark.blank label (← Labelled.blankAll elems)
  | .element ⟨mark, label, value⟩ => do return .element ⟨mark.blank, label, ← value.blank⟩
  | .select mark owner member => do return .select mark.blank (← owner.blank) member
  | .ident i => .ok (.ident i.blank)
  | .literal mark value => .ok (.literal mark.blank value)
def Labelled.blankAll : List (Option Labelled) → Except Fault (List (Option Labelled))
  | [] => .ok []
  | none :: _ => .error .missing
  | some ⟨mark, label, value⟩ :: rest => do
    return some ⟨mark.blank, label, ← value.blank⟩ :: (← Labelled.blankAll rest)
def MatchCase.blank : MatchCase → Except Fault MatchCase
  | ⟨token, pattern, value, _⟩ => do
    return { token := token, pattern := ← pattern.blank, value := ← value.blank }
def MatchCase.blankAll : List (Option MatchCase) → Except Fault (List (Option MatchCase))
  | [] => .ok []
  | none :: _ => .error .missing
  | some c :: rest => do return some (← c.blank) :: (← MatchCase.blankAll rest)
end

namespace Expr

def copy (e : Expr) : Except Fault Expr :=
  match e with
  | .missing => .error (.notCopyable "<nil>")
  | e => e.blank

end Expr

mutual
def Node.copy : Node → Except Fault Node
  | .missing => .error (.notCopyable "<nil>")
  | .module m => do return .module (← m.copy)
  | .alias a => do return .alias { token := a.token, name := a.name, sign := ← a.sign.blank }
  | .expr e => do return .expr (← e.copy)
  | .sign s => do return .sign (← s.blank)
  | .signElem e => do return .signElem (← e.blank)
  | .matchCase c => do return .matchCase (← c.blank)
def Node.copyAll : List Node → Except Fault (List Node)
  | [] => .ok []
  | n :: ns => do return (← n.copy) :: (← Node.copyAll ns)
def Module.copy : Module → Except Fault Module
  | ⟨token, name, id, statements, _⟩ => do
    return { token := token, name := name, id := id, statements := ← Node.copyAll statements }
end

end TypeInference
