import TypeInference.Diagnostic.Basic

/-! # Collected diagnostics

The problems found by one analysis. Of several problems of one class at one position the last is kept; problems without
a position are all kept. They are listed by position.
-/

namespace TypeInference

/-- Problems under the key that tells them apart; a problem without a position has no key. -/
structure Diagnostics where
  entries : List (Option String × Diagnostic) := []
deriving DecidableEq, Repr, Inhabited

namespace Diagnostics

/-- What problems of one class at one position have in common. -/
def key (d : Diagnostic) : Option String :=
  if d.token.line = 0 then none
  else some s!"{d.token.file}:{d.token.line}:{d.token.column}:{d.code.text}"

def add (ds : Diagnostics) (d : Diagnostic) : Diagnostics :=
  match key d with
  | none => ⟨ds.entries ++ [(none, d)]⟩
  | some k => ⟨ds.entries.filter (fun e => e.1 != some k) ++ [(some k, d)]⟩

def isEmpty (ds : Diagnostics) : Bool := ds.entries.isEmpty

/-- Whether the first problem may stand before the second: by file, line, column, class and message. -/
def precedes (a b : Diagnostic) : Bool :=
  if a.token.file != b.token.file then a.token.file < b.token.file
  else if a.token.line != b.token.line then a.token.line < b.token.line
  else if a.token.column != b.token.column then a.token.column < b.token.column
  else if a.code.text != b.code.text then a.code.text < b.code.text
  else !(b.message < a.message)

def toList (ds : Diagnostics) : List Diagnostic :=
  (ds.entries.map Prod.snd).mergeSort precedes

end Diagnostics

end TypeInference
