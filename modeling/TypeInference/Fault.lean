import TypeInference.Text.Quoted

/-! # Faults

The ways in which an operation can be misused: a part that it needs is absent, or a rule that its caller must
keep is broken. A fault is not a diagnostic of the analysed module.
-/

namespace TypeInference

inductive OperatorForm where
  | binary
  | unary
deriving DecidableEq, Repr

def OperatorForm.text : OperatorForm → String
  | .binary => "binary"
  | .unary => "unary"

/-- Why an operation stops without a result. -/
inductive Fault where
  /-- A part that the operation has to look into is absent. -/
  | missing
  /-- A name of the scope is declared again, this time as not overloadable. -/
  | redeclared (name : String) (scope : Int)
  /-- A name of the scope that is not overloadable is declared again. -/
  | declaredOnce (name : String) (scope : Int)
  /-- An operator expression reached the typing of expressions. -/
  | operatorLeft (form : OperatorForm)
  /-- A function reached the typing of expressions without a function type. -/
  | unboundFunction (name : String)
  /-- The solver met a constraint that is of none of its kinds. -/
  | unknownConstraint
  /-- An operation was given fewer steps than it takes. -/
  | outOfSteps
  /-- A statement that is neither a type alias nor an expression. -/
  | unexpectedStatement (kind : String)
  /-- A node that has no copy. -/
  | notCopyable (kind : String)
deriving DecidableEq, Repr

/-- The text of a broken rule; an absent part and an operation that was cut off have none. -/
def Fault.message? : Fault → Option String
  | .missing | .outOfSteps => none
  | .redeclared name scope =>
    some s!"symbols: {Text.quote name} redeclared as non-overloadable in scope {scope}"
  | .declaredOnce name scope =>
    some s!"symbols: {Text.quote name} already declared non-overloadable in scope {scope}"
  | .operatorLeft form => some s!"constraint generation on a {form.text} expression: AST not normalized"
  | .unboundFunction name => some s!"function {Text.quote name} was not bound"
  | .unknownConstraint => some "solver: unknown constraint"
  | .unexpectedStatement kind => some s!"normalizer: unexpected statement {kind}"
  | .notCopyable kind => some s!"ast: cannot copy {kind}"

end TypeInference
