import TypeInference.Token
import TypeInference.Text.Quoted

/-! # Diagnostics

A problem of the analysed module: a code, an anchor and a message.
-/

namespace TypeInference

inductive Code where
  | undefinedSymbol
  | invalidTypeName
  | duplicateDeclaration
  | typeMismatch
  | ambiguousExpression
  | timeout
  | stalled
  | unresolvedOverload
  | malformedModule
  /-- A code without a title of its own. -/
  | other (text : String)
deriving DecidableEq, Repr, Inhabited

namespace Code

def text : Code → String
  | .undefinedSymbol => "A001"
  | .invalidTypeName => "A002"
  | .duplicateDeclaration => "A003"
  | .typeMismatch => "T001"
  | .ambiguousExpression => "T002"
  | .timeout => "T003"
  | .stalled => "T004"
  | .unresolvedOverload => "D001"
  | .malformedModule => "I001"
  | .other text => text

def known : List Code :=
  [.undefinedSymbol, .invalidTypeName, .duplicateDeclaration, .typeMismatch, .ambiguousExpression,
   .timeout, .stalled, .unresolvedOverload, .malformedModule]

def ofText (s : String) : Code :=
  (known.find? fun c => c.text == s).getD (.other s)

def title : Code → String
  | .undefinedSymbol => "undefined symbol"
  | .invalidTypeName => "invalid type identifier"
  | .duplicateDeclaration => "duplicate declaration"
  | .typeMismatch => "type mismatch"
  | .ambiguousExpression => "ambiguous expression"
  | .timeout => "solver timeout"
  | .stalled => "solver stalled"
  | .unresolvedOverload => "unresolved overload"
  | .malformedModule => "malformed module"
  | .other _ => "error"

end Code

/-- A problem at a place. The file of the problem is known even when its anchor has none. -/
structure Diagnostic where
  code : Code
  token : Token
  file : String
  message : String
deriving DecidableEq, Repr, Inhabited

namespace Diagnostic

def of (code : Code) (token : Token) (message : String) : Diagnostic :=
  { code := code, token := token, file := token.file, message := message }

/-- The problem, in the given file if it has none. -/
def inFile (d : Diagnostic) (file : String) : Diagnostic :=
  if d.file = "" then { d with file := file } else d

/-- The anchor, in the file of the problem if it has none. -/
def place (d : Diagnostic) : Token :=
  if d.token.file = "" then { d.token with file := d.file } else d.token

def text (d : Diagnostic) : String :=
  s!"{d.place.position}: {d.code.text} {d.code.title}: {d.message}"

/-- The problem on one line, the place in bold and the class in red. -/
def coloredText (d : Diagnostic) : String :=
  let reset := "\x1b[0m"
  s!"\x1b[1m{d.place.position}:{reset} \x1b[31m{d.code.text} {d.code.title}{reset}: {d.message}"

end Diagnostic

/-! ### Message templates -/

namespace Template

/-- What follows the template when arguments are left over. -/
def extra (args : List String) : String :=
  if args.isEmpty then ""
  else "%!(EXTRA " ++ ", ".intercalate (args.map fun a => "string=" ++ a) ++ ")"

/-- Fills a template: `%s` takes the next argument, `%q` takes it in quotes, `%%` is a percent sign. Arguments that are
missing, left over or asked for in another way are marked in the text. -/
def fill : List Char → List String → String
  | [], args => extra args
  | '%' :: '%' :: rest, args => "%" ++ fill rest args
  | '%' :: verb :: rest, arg :: args =>
    let shown := match verb with
      | 's' | 'v' => arg
      | 'q' => Text.quote arg
      | verb => s!"%!{verb}(string={arg})"
    shown ++ fill rest args
  | '%' :: verb :: rest, [] => s!"%!{verb}(MISSING)" ++ fill rest []
  | ['%'], args => "%!(NOVERB)" ++ extra args
  | c :: rest, args => String.singleton c ++ fill rest args

def message (template : String) (args : List String) : String :=
  if args.isEmpty then template else fill template.toList args

end Template

end TypeInference
