import TypeInference.Tree.Basic

/-! # Walks

The nodes of a tree in source order, each with its depth. Missing children are left out, but an element, argument or
case that is missing in a list is a fault. A walk can be kept out of the children of some nodes.
-/

namespace TypeInference

abbrev Walk := List (Nat × Node)

namespace Walk

/-- A node, and its children if they are wanted. -/
def visit (enter : Node → Bool) (depth : Nat) (n : Node) (children : Except Fault Walk) : Except Fault Walk :=
  if enter n then children.map ((depth, n) :: ·) else .ok [(depth, n)]

def followedBy (first second : Except Fault Walk) : Except Fault Walk := do return (← first) ++ (← second)

end Walk

open Walk

mutual
def Sign.walk (enter : Node → Bool) (depth : Nat) : Sign → Except Fault Walk
  | .missing => .ok []
  | .name n => visit enter depth (.sign (.name n)) (.ok [])
  | .func f => f.walk enter depth
  | .tuple t => t.walk enter depth
  | .union token cases => visit enter depth (.sign (.union token cases)) (Sign.walkAll enter (depth + 1) cases)
def Sign.walkAll (enter : Node → Bool) (depth : Nat) : List Sign → Except Fault Walk
  | [] => .ok []
  | s :: ss => followedBy (s.walk enter depth) (Sign.walkAll enter depth ss)
def FuncSign.walk (enter : Node → Bool) (depth : Nat) : FuncSign → Except Fault Walk
  | ⟨token, none, codomain⟩ =>
    visit enter depth (.sign (.func ⟨token, none, codomain⟩)) (codomain.walk enter (depth + 1))
  | ⟨token, some domain, codomain⟩ =>
    visit enter depth (.sign (.func ⟨token, some domain, codomain⟩))
      (followedBy (domain.walk enter (depth + 1)) (codomain.walk enter (depth + 1)))
def TupleSign.walk (enter : Node → Bool) (depth : Nat) : TupleSign → Except Fault Walk
  | ⟨token, label, elems⟩ =>
    visit enter depth (.sign (.tuple ⟨token, label, elems⟩)) (SignElem.walkAll enter (depth + 1) elems)
def SignElem.walk (enter : Node → Bool) (depth : Nat) : SignElem → Except Fault Walk
  | ⟨token, label, name, sign⟩ =>
    visit enter depth (.signElem ⟨token, label, name, sign⟩) (sign.walk enter (depth + 1))
def SignElem.walkAll (enter : Node → Bool) (depth : Nat) : List (Option SignElem) → Except Fault Walk
  | [] => .ok []
  | none :: _ => .error .missing
  | some e :: es => followedBy (e.walk enter depth) (SignElem.walkAll enter depth es)
end

mutual
def Expr.walk (enter : Node → Bool) (depth : Nat) : Expr → Except Fault Walk
  | .missing => .ok []
  | .func ⟨mark, name, sign, body, scope, inner, symbol, params⟩ =>
    visit enter depth (.expr (.func ⟨mark, name, sign, body, scope, inner, symbol, params⟩))
      (followedBy
        (match sign with
        | some s => s.walk enter (depth + 1)
        | none => .ok [])
        (body.walk enter (depth + 1)))
  | .cond mark thenScope elseScope condition thenBranch elseBranch =>
    visit enter depth (.expr (.cond mark thenScope elseScope condition thenBranch elseBranch))
      (followedBy (condition.walk enter (depth + 1))
        (followedBy (thenBranch.walk enter (depth + 1)) (elseBranch.walk enter (depth + 1))))
  | .matching mark subject cases =>
    visit enter depth (.expr (.matching mark subject cases))
      (followedBy (subject.walk enter (depth + 1)) (MatchCase.walkAll enter (depth + 1) cases))
  | .letBinding b => visit enter depth (.expr (.letBinding b)) (.ok [])
  | .binary mark op left right =>
    visit enter depth (.expr (.binary mark op left right))
      (followedBy (visit enter (depth + 1) (.expr (.ident op)) (.ok []))
        (followedBy (left.walk enter (depth + 1)) (right.walk enter (depth + 1))))
  | .unary mark op operand =>
    visit enter depth (.expr (.unary mark op operand))
      (followedBy (visit enter (depth + 1) (.expr (.ident op)) (.ok [])) (operand.walk enter (depth + 1)))
  | .call mark callee args =>
    visit enter depth (.expr (.call mark callee args))
      (followedBy (callee.walk enter (depth + 1)) (Labelled.walkAll enter .argument (depth + 1) args))
  | .argument ⟨mark, label, value⟩ =>
    visit enter depth (.expr (.argument ⟨mark, label, value⟩)) (value.walk enter (depth + 1))
  | .tuple mark label elems =>
    visit enter depth (.expr (.tuple mark label elems)) (Labelled.walkAll enter .element (depth + 1) elems)
  | .element ⟨mark, label, value⟩ =>
    visit enter depth (.expr (.element ⟨mark, label, value⟩)) (value.walk enter (depth + 1))
  | .select mark owner member =>
    visit enter depth (.expr (.select mark owner member)) (owner.walk enter (depth + 1))
  | .ident i => visit enter depth (.expr (.ident i)) (.ok [])
  | .literal mark value => visit enter depth (.expr (.literal mark value)) (.ok [])
def Labelled.walkAll (enter : Node → Bool) (wrap : Labelled → Expr) (depth : Nat) :
    List (Option Labelled) → Except Fault Walk
  | [] => .ok []
  | none :: _ => .error .missing
  | some ⟨mark, label, value⟩ :: rest =>
    followedBy (visit enter depth (.expr (wrap ⟨mark, label, value⟩)) (value.walk enter (depth + 1)))
      (Labelled.walkAll enter wrap depth rest)
def MatchCase.walk (enter : Node → Bool) (depth : Nat) : MatchCase → Except Fault Walk
  | ⟨token, pattern, value, inner⟩ =>
    visit enter depth (.matchCase ⟨token, pattern, value, inner⟩)
      (followedBy (pattern.walk enter (depth + 1)) (value.walk enter (depth + 1)))
def MatchCase.walkAll (enter : Node → Bool) (depth : Nat) : List (Option MatchCase) → Except Fault Walk
  | [] => .ok []
  | none :: _ => .error .missing
  | some c :: rest => followedBy (c.walk enter depth) (MatchCase.walkAll enter depth rest)
end

mutual
def Node.walk (enter : Node → Bool) (depth : Nat) : Node → Except Fault Walk
  | .missing => .ok []
  | .module m => m.walk enter depth
  | .alias a => visit enter depth (.alias a) (a.sign.walk enter (depth + 1))
  | .expr e => e.walk enter depth
  | .sign s => s.walk enter depth
  | .signElem e => e.walk enter depth
  | .matchCase c => c.walk enter depth
def Node.walkAll (enter : Node → Bool) (depth : Nat) : List Node → Except Fault Walk
  | [] => .ok []
  | n :: ns => followedBy (n.walk enter depth) (Node.walkAll enter depth ns)
def Module.walk (enter : Node → Bool) (depth : Nat) : Module → Except Fault Walk
  | ⟨token, name, id, statements, scope⟩ =>
    visit enter depth (.module ⟨token, name, id, statements, scope⟩) (Node.walkAll enter (depth + 1) statements)
end

/-- All nodes of a module in source order, the module first. -/
def Module.nodes (m : Module) : Except Fault Walk := m.walk (fun _ => true) 0

end TypeInference
