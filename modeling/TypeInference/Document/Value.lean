/-! # Documents

A document is a tree of mappings, sequences and scalars, each at a line and column. A value can be given a name, and a
reference stands for the value of that name.
-/

namespace TypeInference.Document

/-- A place in a text; lines and columns start at one. -/
structure Place where
  line : Nat
  column : Nat
deriving DecidableEq, Repr, Inhabited

def Place.next (p : Place) : Place := { p with column := p.column + 1 }

/-- How a scalar is written. This matters only where texts have a type. -/
inductive Style where
  | plain
  /-- Between quotes, or as a block of lines. -/
  | quoted
  /-- With a type of its own. -/
  | tagged (tag : String)
deriving DecidableEq, Repr, Inhabited

/-- A value of a document. Entries of a mapping are kept as they are written, repeated keys included. -/
inductive Value where
  | scalar (place : Place) (text : String) (style : Style)
  | sequence (place : Place) (items : List Value)
  | mapping (place : Place) (entries : List (Value × Value))
  | reference (place : Place) (name : String)
deriving Repr, Inhabited

namespace Value

def empty (place : Place) : Value := .scalar place "" .plain

def place : Value → Place
  | .scalar place .. => place
  | .sequence place _ => place
  | .mapping place _ => place
  | .reference place _ => place

/-- The text of a scalar, or the name of a reference; other values have an empty one. -/
def text : Value → String
  | .scalar _ text _ => text
  | .reference _ name => name
  | _ => ""

mutual
def size : Value → Nat
  | .scalar .. | .reference .. => 1
  | .sequence _ items => 1 + sizeItems items
  | .mapping _ entries => 1 + sizeEntries entries
def sizeItems : List Value → Nat
  | [] => 0
  | n :: ns => n.size + sizeItems ns
def sizeEntries : List (Value × Value) → Nat
  | [] => 0
  | (k, v) :: rest => k.size + v.size + sizeEntries rest
end

end Value

end TypeInference.Document
