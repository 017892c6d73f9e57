/-! # Source anchors

Where a node of a module stands: the text that names it, and its file, line and column as far as they are known.
-/

namespace TypeInference

/-- The anchor of a node. Lines and columns start at one; zero means unknown. -/
structure Token where
  lexeme : String := ""
  file : String := ""
  line : Int := 0
  column : Int := 0
deriving DecidableEq, Repr, Inhabited

namespace Token

def isPositioned (t : Token) : Bool := t.line > 0

/-- The position as `file:line:column`, without the parts that are unknown. -/
def position (t : Token) : String :=
  if t.isPositioned then
    if t.file = "" then s!"{t.line}:{t.column}" else s!"{t.file}:{t.line}:{t.column}"
  else if t.file = "" then "<unknown>" else t.file

def moveTo (t : Token) (file : String) (line column : Int) : Token :=
  { t with file := file, line := line, column := column }

end Token

end TypeInference
