import TypeInference.Tree.Basic

/-! # Source text

Trees as source text. Parentheses are written only where the precedence of operators asks for them; all binary operators
are left associative, prefix operators bind tighter than every binary one, and conditionals, matches and functions
extend as far to the right as possible. The cases of a match stand on lines of their own, with their patterns padded to
one width.
-/

namespace TypeInference

/-- The precedence of prefix operators, above every binary one. -/
def prefixPrecedence : Nat := 10

/-- The precedence of a binary operator; a higher one binds tighter. -/
def precedence : String → Nat
  | "or" => 1
  | "and" => 2
  | "==" | "!=" => 3
  | "<" | ">" | "<=" | ">=" => 4
  | "+" | "-" => 5
  | "*" | "/" => 6
  | _ => prefixPrecedence

def labelled (label text : String) : String := if label = "" then text else label ++ ": " ++ text

def tupleText (label : String) (parts : List String) : String :=
  let heading := if label = "" then "" else "#" ++ label
  if label ≠ "" ∧ parts.isEmpty then heading else heading ++ "(" ++ ", ".intercalate parts ++ ")"

def parameterText (label name : String) : String :=
  if label = "" then if name = "" then "_" else "_ " ++ name
  else if name = "" || name = label then label
  else label ++ " " ++ name

mutual
/-- The text of a signature; a missing one is the empty tuple. -/
def Sign.source : Sign → Except Fault String
  | .missing => .ok "()"
  | .name n => .ok n.name
  | .func f => f.source
  | .tuple t => t.source
  | .union _ cases => do return " or ".intercalate (← Sign.sourceCases cases)
/-- The texts of the cases of a union; functions among them are in parentheses. -/
def Sign.sourceCases : List Sign → Except Fault (List String)
  | [] => .ok []
  | .func f :: rest => do return ("(" ++ (← f.source) ++ ")") :: (← Sign.sourceCases rest)
  | s :: rest => do return (← s.source) :: (← Sign.sourceCases rest)
/-- The text of a function signature, which has to have a domain. -/
def FuncSign.source : FuncSign → Except Fault String
  | ⟨_, none, _⟩ => .error .missing
  | ⟨_, some domain, codomain⟩ => do return (← domain.source) ++ " -> " ++ (← codomain.source)
def TupleSign.source : TupleSign → Except Fault String
  | ⟨_, label, elems⟩ => do return tupleText label (← SignElem.sourceAll elems)
def SignElem.source : SignElem → Except Fault String
  | ⟨_, label, _, sign⟩ => do return labelled label (← sign.source)
def SignElem.sourceAll : List (Option SignElem) → Except Fault (List String)
  | [] => .ok []
  | none :: _ => .error .missing
  | some e :: es => do return (← e.source) :: (← SignElem.sourceAll es)
end

namespace SignElem

def parameterSource : Option SignElem → Except Fault String
  | none => .error .missing
  | some e => do return parameterText e.label e.name ++ ": " ++ (← e.sign.source)

end SignElem

namespace FuncSign

def header (s : FuncSign) : Except Fault String := do
  let params ← match s.domain with
    | some domain => domain.elems.mapM SignElem.parameterSource
    | none => pure []
  return "(" ++ ", ".intercalate params ++ ") -> " ++ (← s.codomain.source)

end FuncSign

def indentation (level : Nat) : String := String.ofList (List.replicate (4 * level) ' ')

def parenthesize (needed : Bool) (text : String) : String := if needed then "(" ++ text ++ ")" else text

/-- The lines of the cases of a match: pattern and value of each. Widths are counted in bytes. -/
def caseLines (level : Nat) (cases : List (String × String)) : String :=
  let width := (cases.map fun c => c.1.utf8ByteSize).foldl max 0
  String.join (cases.map fun (pattern, value) =>
    let padding := String.ofList (List.replicate (width - pattern.utf8ByteSize) ' ')
    "\n" ++ indentation level ++ "with " ++ pattern ++ padding ++ " :: " ++ value)

mutual
/-- The text of an expression at a level of indentation, below an operator of precedence `outer`, on its right side if
`right` holds. -/
def Expr.sourceAt (level outer : Nat) (right : Bool) : Expr → Except Fault String
  | .missing => .ok "<???>"
  | .binary _ op l r => do
    let own := precedence op.name
    let text := (← l.sourceAt level own false) ++ " " ++ op.name ++ " " ++ (← r.sourceAt level own true)
    return parenthesize (own < outer || (own == outer && right)) text
  | .unary _ op operand => do
    let gap := if op.name = "not" then " " else ""
    return op.name ++ gap ++ (← operand.sourceAt level prefixPrecedence false)
  | .func ⟨_, name, sign, body, _, _, _, _⟩ => do
    let header ← match sign with
      | some s => s.header
      | none => pure "()"
    let name := if name = "" then "" else " " ++ name
    return parenthesize (outer > 0) ("func" ++ name ++ header ++ " :: " ++ (← body.sourceAt level 0 false))
  | .cond _ _ _ condition thenBranch elseBranch => do
    return parenthesize (outer > 0) ("if " ++ (← condition.sourceAt level 0 false)
      ++ " then " ++ (← thenBranch.sourceAt level 0 false) ++ " else " ++ (← elseBranch.sourceAt level 0 false))
  | .matching _ subject cases => do
    let lines := caseLines (level + 1) (← MatchCase.sources (level + 1) cases)
    return parenthesize (outer > 0) ("match " ++ (← subject.sourceAt level 0 false) ++ lines)
  | .letBinding b => .ok ("let " ++ b.name)
  | .call _ callee args => do
    return (← callee.sourceAt level prefixPrecedence false) ++ "("
      ++ ", ".intercalate (← Labelled.sources level args) ++ ")"
  | .argument ⟨_, label, value⟩ => do return labelled label (← value.sourceAt level 0 false)
  | .tuple _ label elems => do return tupleText label (← Labelled.sources level elems)
  | .element ⟨_, label, value⟩ => do return labelled label (← value.sourceAt level 0 false)
  | .select _ owner member => do return (← owner.sourceAt level prefixPrecedence false) ++ "." ++ member.text
  | .ident i => .ok i.name
  | .literal mark _ => .ok mark.token.lexeme
def Labelled.sources (level : Nat) : List (Option Labelled) → Except Fault (List String)
  | [] => .ok []
  | none :: _ => .error .missing
  | some ⟨_, label, value⟩ :: rest => do
    return labelled label (← value.sourceAt level 0 false) :: (← Labelled.sources level rest)
/-- The texts of the patterns and values of cases. Patterns are written as if they stood alone. -/
def MatchCase.sources (level : Nat) : List (Option MatchCase) → Except Fault (List (String × String))
  | [] => .ok []
  | none :: _ => .error .missing
  | some ⟨_, pattern, value, _⟩ :: rest => do
    return (← pattern.sourceAt 0 0 false, ← value.sourceAt level 0 false) :: (← MatchCase.sources level rest)
end

namespace Expr

def source (e : Expr) : Except Fault String := e.sourceAt 0 0 false

end Expr

mutual
def Node.source : Node → Except Fault String
  | .missing => .error .missing
  | .module m => m.source
  | .alias a => do return "type " ++ a.name ++ " :: " ++ (← a.sign.source)
  | .expr .missing => .error .missing
  | .expr e => e.source
  | .sign .missing => .error .missing
  | .sign s => s.source
  | .signElem e => e.source
  | .matchCase c => do return "with " ++ (← c.pattern.source) ++ " :: " ++ (← c.value.source)
def Node.sourceAll : List Node → Except Fault (List String)
  | [] => .ok []
  | n :: ns => do return (← n.source) :: (← Node.sourceAll ns)
def Module.source : Module → Except Fault String
  | ⟨_, _, _, statements, _⟩ => do
    return "\n".intercalate ((← Node.sourceAll statements).map fun s => s ++ "\n")
end

end TypeInference
