import TypeInference.Fault

/-! # Types

A type is a leaf (a scalar type, the error type, an inference variable) or a reference to a numbered node of a
`TypeGraph`. Recursive types are cycles of the graph, so a reference and not its unfolding is the identity of a
composite type.
-/

namespace TypeInference

inductive Scalar where
  | bool
  | int
  | float
  | string
deriving DecidableEq, Repr

namespace Scalar

def all : List Scalar := [.bool, .int, .float, .string]

def text : Scalar → String
  | .bool => "Bool"
  | .int => "Int"
  | .float => "Float"
  | .string => "String"

end Scalar

abbrev NodeId := Nat

/-- A type, read in a graph. -/
inductive Ty where
  /-- No type is known. -/
  | absent
  | scalar (s : Scalar)
  /-- The type of what could not be typed. -/
  | error
  /-- An inference variable; its meaning lives in a substitution. -/
  | var (id : Int)
  | node (id : NodeId)
deriving DecidableEq, Repr, Inhabited

namespace Ty

abbrev bool : Ty := .scalar .bool
abbrev int : Ty := .scalar .int
abbrev float : Ty := .scalar .float
abbrev string : Ty := .scalar .string

end Ty

/-- One position of a tuple type; an empty label means that it has none. -/
structure TupleField where
  label : String := ""
  type : Ty
deriving DecidableEq, Repr, Inhabited

inductive Composite where
  | metatype (of : Ty)
  /-- A function from a tuple to a type; the domain is absent only while the node is being built. -/
  | function (domain : Option NodeId) (codomain : Ty)
  | tuple (label : String) (fields : List TupleField)
  | union (cases : List Ty)
deriving DecidableEq, Repr, Inhabited

structure TypeGraph where
  nodes : Array Composite := #[]
deriving DecidableEq, Repr, Inhabited

namespace TypeGraph

def size (g : TypeGraph) : Nat := g.nodes.size

def get? (g : TypeGraph) (i : NodeId) : Option Composite := g.nodes[i]?

/-- The composite type of a number, which has to exist. -/
def get (g : TypeGraph) (i : NodeId) : Except Fault Composite :=
  match g.get? i with
  | some c => .ok c
  | none => .error .missing

def add (g : TypeGraph) (c : Composite) : TypeGraph × NodeId :=
  (⟨g.nodes.push c⟩, g.nodes.size)

def set (g : TypeGraph) (i : NodeId) (c : Composite) : TypeGraph :=
  ⟨g.nodes.setIfInBounds i c⟩

def unionCases? (g : TypeGraph) : Ty → Option (List Ty)
  | .node i =>
    match g.get? i with
    | some (.union cases) => some cases
    | _ => none
  | _ => none

def tuple? (g : TypeGraph) : Ty → Option (String × List TupleField)
  | .node i =>
    match g.get? i with
    | some (.tuple label fields) => some (label, fields)
    | _ => none
  | _ => none

def function? (g : TypeGraph) : Ty → Option (Option NodeId × Ty)
  | .node i =>
    match g.get? i with
    | some (.function domain codomain) => some (domain, codomain)
    | _ => none
  | _ => none

def metatype? (g : TypeGraph) : Ty → Option Ty
  | .node i =>
    match g.get? i with
    | some (.metatype of) => some of
    | _ => none
  | _ => none

def addOperator (g : TypeGraph) (operands : List Ty) (result : Ty) : TypeGraph × NodeId :=
  let (g, domain) := g.add (.tuple "" (operands.map fun t => { type := t }))
  g.add (.function (some domain) result)

end TypeGraph

def TupleField.find? (fields : List TupleField) (label : String) : Option TupleField :=
  List.find? (fun f => f.label == label) fields

/-- Two tuple types have one shape when their labels, arities and field labels agree. -/
def sameShape (label1 : String) (fields1 : List TupleField) (label2 : String)
    (fields2 : List TupleField) : Bool :=
  label1 == label2 && fields1.map TupleField.label == fields2.map TupleField.label

end TypeInference
