import TypeInference.Token
import TypeInference.Substitution.Reify

/-! # Constraints

What the types of a module have to satisfy: two types are equal, one conforms to the other, a type is that of a member
of another, or one of several constraints holds. Every constraint knows where it comes from.
-/

namespace TypeInference

/-- A position of a tuple, by label or by number. -/
inductive Member where
  | label (l : String)
  | index (i : Int)
deriving DecidableEq, Repr, Inhabited

namespace Member

/-- The member with the label; without a label it is the first one. -/
def ofLabel (l : String) : Member := if l = "" then .index 0 else .label l

def isLabel : Member → Bool
  | .label _ => true
  | .index _ => false

def text : Member → String
  | .label l => l
  | .index i => toString i

def field? (fields : List TupleField) : Member → Option TupleField
  | .label l => TupleField.find? fields l
  | .index i => if i < 0 then none else fields[i.toNat]?

end Member

/-! ### Locations -/

/-- One step from a node to what is constrained in it. -/
inductive PathStep where
  | signature
  | body
  | condition
  | pattern (i : Int)
  | callee
  | tuple
  | element (i : Int)
  | elementLabel (l : String)
  | identifier
  | unionCase
  | domain
  | codomain
  | parameter (i : Int)
deriving DecidableEq, Repr, Inhabited

namespace PathStep

def text : PathStep → String
  | .signature => "signature"
  | .body => "body"
  | .condition => "condition"
  | .pattern i => s!"pattern {i}"
  | .callee => "callee"
  | .tuple => "tuple"
  | .element i => s!"element {i}"
  | .elementLabel l => s!"element {l}"
  | .identifier => "identifier"
  | .unionCase => "union case"
  | .domain => "domain"
  | .codomain => "codomain"
  | .parameter i => s!"parameter {i}"

def ofMember : Member → PathStep
  | .label l => .elementLabel l
  | .index i => .element i

end PathStep

/-- Where a constraint comes from: the anchor of a node, if there is one, and the path from the node. -/
structure Location where
  node : Option Token := none
  path : List PathStep := []
deriving DecidableEq, Repr, Inhabited

namespace Location

def append (l : Location) (steps : List PathStep) : Location := { l with path := l.path ++ steps }

def pathText (l : Location) : String := ".".intercalate (l.path.map PathStep.text)

def text (l : Location) : String :=
  let position := match l.node with
    | some token => token.position
    | none => "<unknown>"
  if l.path.isEmpty then position else position ++ " " ++ l.pathText

end Location

/-! ### Constraints -/

inductive Relation where
  /-- The types are the same. -/
  | equality
  /-- The left type is the right one or one of its cases. -/
  | conformance
deriving DecidableEq, Repr, Inhabited

inductive ConstraintKind where
  | disjunction
  | conformance
  | member
  | equality
  | other (n : Int)
deriving DecidableEq, Repr, Inhabited

namespace ConstraintKind

def ofInt : Int → ConstraintKind
  | 0 => .disjunction
  | 1 => .conformance
  | 2 => .member
  | 3 => .equality
  | n => .other n

/-- The order in which the solver leaves constraints: those of the highest rank are solved first. -/
def rank : ConstraintKind → Int
  | .disjunction => 0
  | .conformance => 1
  | .member => 2
  | .equality => 3
  | .other n => n

def text : ConstraintKind → String
  | .disjunction => "disjunction"
  | .conformance => "conformance"
  | .member => "member"
  | .equality => "equality"
  | .other n => s!"constraint({n})"

end ConstraintKind

inductive Constraint where
  | relate (relation : Relation) (left right : Ty) (location : Location)
  /-- `type` is the type of a member of `owner`. -/
  | member (owner : Ty) (member : Member) (type : Ty) (location : Location)
  | oneOf (choices : List Constraint) (location : Location)
  /-- An obligation that nothing is known about but the number of its kind. -/
  | unknown (kind : Int) (location : Location)
deriving Repr, Inhabited

namespace Constraint

abbrev equality (left right : Ty) (location : Location) : Constraint :=
  .relate .equality left right location

abbrev conformance (left right : Ty) (location : Location) : Constraint :=
  .relate .conformance left right location

def kind : Constraint → ConstraintKind
  | .relate .equality .. => .equality
  | .relate .conformance .. => .conformance
  | .member .. => .member
  | .oneOf .. => .disjunction
  | .unknown n _ => .other n

def location : Constraint → Location
  | .relate _ _ _ location => location
  | .member _ _ _ location => location
  | .oneOf _ location => location
  | .unknown _ location => location

mutual
def text (g : TypeGraph) : Constraint → String
  | .relate .equality t u _ => g.textInMessage t ++ " == " ++ g.textInMessage u
  | .relate .conformance t u _ => g.textInMessage t ++ " <= " ++ g.textInMessage u
  | .member t m u _ => g.textInMessage t ++ "." ++ m.text ++ " == " ++ g.textInMessage u
  | .oneOf choices _ => "(" ++ ") or (".intercalate (texts g choices) ++ ")"
  | .unknown n _ => (ConstraintKind.other n).text
def texts (g : TypeGraph) : List Constraint → List String
  | [] => []
  | c :: cs => text g c :: texts g cs
end

def reifyType (s : Substitution) (g : TypeGraph) : Ty → Except Fault (TypeGraph × Ty)
  | .absent => .ok (g, .absent)
  | t => s.reify g t

mutual
def reify (s : Substitution) (g : TypeGraph) : Constraint → Except Fault (TypeGraph × Constraint)
  | .relate relation t u location => do
    let (g, t) ← reifyType s g t
    let (g, u) ← reifyType s g u
    return (g, .relate relation t u location)
  | .member t m u location => do
    let (g, t) ← reifyType s g t
    let (g, u) ← reifyType s g u
    return (g, .member t m u location)
  | .oneOf choices location => do
    let (g, choices) ← reifyAll s g choices
    return (g, .oneOf choices location)
  | .unknown n location => .ok (g, .unknown n location)
def reifyAll (s : Substitution) (g : TypeGraph) : List Constraint → Except Fault (TypeGraph × List Constraint)
  | [] => .ok (g, [])
  | c :: cs => do
    let (g, c) ← reify s g c
    let (g, cs) ← reifyAll s g cs
    return (g, c :: cs)
end

end Constraint

end TypeInference
