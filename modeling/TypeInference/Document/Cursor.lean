import TypeInference.Document.Value

/-! # Reading positions

The rest of a text with the place where it starts, and the blanks and line ends between the words of a document.
-/

namespace TypeInference.Document

def isBreak (c : Char) : Bool := c == '\n' || c == '\r' || c == '\u0085' || c == '\u2028' || c == '\u2029'

def isBlank (c : Char) : Bool := c == ' ' || c == '\t'

/-- Whether a word ends here: at a blank, a line end, or the end of the text. -/
def isGap : List Char → Bool
  | [] => true
  | c :: _ => isBlank c || isBreak c

structure Cursor where
  rest : List Char
  line : Nat := 1
  column : Nat := 1
deriving Inhabited

namespace Cursor

def place (c : Cursor) : Place := ⟨c.line, c.column⟩

def advance (c : Cursor) (n : Nat) : Cursor :=
  { c with rest := c.rest.drop n, column := c.column + n }

/-- The cursor after the characters of its line for which a test holds. -/
def skipWhile (test : Char → Bool) (c : Cursor) : Cursor :=
  let n := (c.rest.takeWhile test).length
  c.advance n

def isAt (c : Cursor) (test : Char → Bool) : Bool := c.rest.head?.any test

/-- The line end at the cursor as a scalar keeps it, and the cursor on the next line. -/
def takeBreak (c : Cursor) : Char × Cursor :=
  match c.rest with
  | '\r' :: '\n' :: rest => ('\n', ⟨rest, c.line + 1, 1⟩)
  | ch :: rest => (if ch = '\u2028' || ch = '\u2029' then ch else '\n', ⟨rest, c.line + 1, 1⟩)
  | [] => ('\n', c)

def atDocumentMark (c : Cursor) : Bool :=
  c.column == 1 &&
    match c.rest with
    | '-' :: '-' :: '-' :: rest => isGap rest
    | '.' :: '.' :: '.' :: rest => isGap rest
    | _ => false

end Cursor

/-! ### Words of scalars -/

/-- What stands between two words of a scalar: blanks, or line ends with blanks around them. -/
structure Separation where
  blanks : List Char := []
  breaks : List Char := []
deriving Inhabited

namespace Separation

/-- What a scalar keeps of a separation. One line end is a blank, and of several the first is left out. -/
def folded (s : Separation) : List Char :=
  match s.breaks with
  | [] => s.blanks
  | first :: more => if first ≠ '\n' then first :: more else if more.isEmpty then [' '] else more

/-- Reads a separation. A tab may not stand in the first `indent` columns of a line. The first argument bounds the
length. -/
def read (indent : Nat) : Nat → Separation → Cursor → Option (Separation × Cursor)
  | 0, _, _ => none
  | fuel + 1, s, c =>
    match c.rest with
    | [] => some (s, c)
    | ch :: _ =>
      if isBlank ch then
        if s.breaks.isEmpty then read indent fuel { s with blanks := s.blanks ++ [ch] } (c.advance 1)
        else if ch = '\t' && c.column ≤ indent then none
        else read indent fuel s (c.advance 1)
      else if isBreak ch then
        let (kept, c) := c.takeBreak
        read indent fuel { s with breaks := s.breaks ++ [kept] } c
      else some (s, c)

end Separation

end TypeInference.Document
