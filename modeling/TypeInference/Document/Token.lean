import TypeInference.Document.Scalar

/-! # Tokens

A document as a sequence of tokens. The nesting that columns express is made explicit: every block starts and ends with
a token of its own, and every key has a token before it.

A value turns out to be a key only when its colon is met, so the place where a key may start is kept, and the token for
the key is put in there afterwards. A key is on one line, and its colon is not too far away.

A text that is malformed further on has the tokens before. Two tokens beyond the one in question have to be there, so a
few of them are lost.
-/

namespace TypeInference.Document

inductive Token.Kind where
  | directive
  | documentStart
  | documentEnd
  | streamEnd
  | blockSequence
  | blockMapping
  | blockEnd
  | flowSequence
  | flowSequenceEnd
  | flowMapping
  | flowMappingEnd
  | blockEntry
  | flowEntry
  | key
  | value
  | reference (name : String)
  | anchor (name : String)
  | tag (tag : String)
  | scalar (text : String) (quoted : Bool)
deriving DecidableEq, Repr

structure Token where
  kind : Token.Kind
  place : Place
deriving DecidableEq, Repr

structure KeyStart where
  /-- The number of tokens before it. -/
  number : Nat
  place : Place
  /-- Whether only a key may stand there. -/
  required : Bool

/-- How far after the start of a key its colon may be. -/
def longestKey : Nat := 1024

def deepestNesting : Nat := 10000

def KeyStart.isOpen (k : KeyStart) (c : Cursor) : Bool :=
  k.place.line == c.line && c.column ≤ k.place.column + longestKey

structure Lexer where
  cursor : Cursor
  /-- The length of the text, which bounds all steps. -/
  bound : Nat
  /-- The tokens up to here, the last one first, and their number. -/
  tokens : List Token := []
  count : Nat := 0
  /-- The column of the innermost block, or zero, and the columns of the blocks around it. -/
  indent : Nat := 0
  outer : List Nat := []
  /-- Where a key may start, for the innermost bracket first and the blocks outside of brackets last. -/
  keys : List (Option KeyStart) := [none]
  keyAllowed : Bool := true

namespace Lexer

def inFlow (l : Lexer) : Bool :=
  match l.keys with
  | _ :: _ :: _ => true
  | _ => false

def add (l : Lexer) (kind : Token.Kind) (place : Place) : Lexer :=
  { l with tokens := ⟨kind, place⟩ :: l.tokens, count := l.count + 1 }

def insert (l : Lexer) (number : Nat) (kind : Token.Kind) (place : Place) : Lexer :=
  let later := l.count - number
  { l with tokens := l.tokens.take later ++ ⟨kind, place⟩ :: l.tokens.drop later, count := l.count + 1 }

def take (l : Lexer) (kind : Token.Kind) (n : Nat) : Lexer :=
  { l.add kind l.cursor.place with cursor := l.cursor.advance n }

/-! ### Keys -/

/-- Gives up that a key may start where it was kept; nothing if it has to. -/
def dropKey (l : Lexer) : Option Lexer :=
  match l.keys with
  | some k :: rest => if k.required then none else some { l with keys := none :: rest }
  | _ => some l

/-- Keeps that a key may start at the next token, if it may. -/
def keepKey (l : Lexer) : Option Lexer := do
  if !l.keyAllowed then return l
  let l ← l.dropKey
  let k : KeyStart :=
    { number := l.count, place := l.cursor.place, required := !l.inFlow && l.indent == l.cursor.column }
  return { l with keys := some k :: l.keys.tail }

/-! ### Blocks -/

/-- Starts a block in a column to the right of the innermost one, before the token after the first `number`. -/
def openBlock (l : Lexer) (number : Nat) (kind : Token.Kind) (place : Place) : Option Lexer :=
  if l.inFlow || place.column ≤ l.indent then some l
  else if l.outer.length ≥ deepestNesting then none
  else some { l.insert number kind place with indent := place.column, outer := l.indent :: l.outer }

def closeBlocksFrom (column : Nat) : List Nat → Lexer → Lexer
  | [], l => l
  | around :: outer, l =>
    if l.indent ≤ column then l
    else closeBlocksFrom column outer { l.add .blockEnd l.cursor.place with indent := around, outer := outer }

def closeBlocks (l : Lexer) (column : Nat) : Lexer := if l.inFlow then l else closeBlocksFrom column l.outer l

/-! ### Tokens -/

/-- Skips blanks, comments and line ends. After a line end a key may start, unless it is inside brackets. Where a key
may start, a tab is no blank. -/
def skip : Nat → Lexer → Lexer
  | 0, l => l
  | fuel + 1, l =>
    let c := l.cursor.skipWhile fun ch => ch == ' ' || (ch == '\t' && (l.inFlow || !l.keyAllowed))
    let c := if c.isAt (· == '#') then c.skipWhile (!isBreak ·) else c
    if c.isAt isBreak then skip fuel { l with cursor := c.takeBreak.2, keyAllowed := l.keyAllowed || !l.inFlow }
    else { l with cursor := c }

def endOfText (l : Lexer) : Option Lexer := do
  let c := l.cursor
  let l := { l with cursor := if c.column = 1 then c else { c with line := c.line + 1, column := 1 } }
  let l ← (l.closeBlocks 0).dropKey
  return { l.add .streamEnd l.cursor.place with keyAllowed := false }

def documentMark (l : Lexer) (kind : Token.Kind) (n : Nat) : Option Lexer := do
  let l ← (l.closeBlocks 0).dropKey
  return { l.take kind n with keyAllowed := false }

/-- The number of characters of the directive that names the version. -/
def versionDirective? (cs : List Char) : Option Nat :=
  match cs with
  | '%' :: 'Y' :: 'A' :: 'M' :: 'L' :: rest =>
    let blanks := (rest.takeWhile isBlank).length
    match rest.drop blanks with
    | '1' :: '.' :: '1' :: rest => if blanks > 0 && isGap rest then some (8 + blanks) else none
    | _ => none
  | _ => none

def openBracket (l : Lexer) (kind : Token.Kind) : Option Lexer := do
  let l ← l.keepKey
  if l.keys.length > deepestNesting then none
  return { l.take kind 1 with keys := none :: l.keys, keyAllowed := true }

def closeBracket (l : Lexer) (kind : Token.Kind) : Option Lexer := do
  let l ← l.dropKey
  return { l.take kind 1 with keys := if l.inFlow then l.keys.tail else l.keys, keyAllowed := false }

def comma (l : Lexer) : Option Lexer := do
  let l ← l.dropKey
  return { l.take .flowEntry 1 with keyAllowed := true }

def dash (l : Lexer) : Option Lexer := do
  if !l.inFlow && !l.keyAllowed then none
  let l ← l.openBlock l.count .blockSequence l.cursor.place
  let l ← l.dropKey
  return { l.take .blockEntry 1 with keyAllowed := true }

def keyMark (l : Lexer) : Option Lexer := do
  if !l.inFlow && !l.keyAllowed then none
  let l ← l.openBlock l.count .blockMapping l.cursor.place
  let l ← l.dropKey
  return { l.take .key 1 with keyAllowed := !l.inFlow }

/-- The colon before a value: after a key that has just been read, or after one with a mark. -/
def colon (l : Lexer) : Option Lexer := do
  match l.keys with
  | some k :: rest =>
    if k.isOpen l.cursor then
      let l ← { l.insert k.number .key k.place with keys := none :: rest }.openBlock k.number .blockMapping k.place
      return { l.take .value 1 with keyAllowed := false }
    else if k.required then none
    else markedColon l
  | _ => markedColon l
where
  markedColon (l : Lexer) : Option Lexer := do
    if !l.inFlow && !l.keyAllowed then none
    let l ← l.openBlock l.count .blockMapping l.cursor.place
    return { l.take .value 1 with keyAllowed := !l.inFlow }

def isNameChar (c : Char) : Bool := c.isAlphanum || c == '_' || c == '-'

def name (l : Lexer) (kind : String → Token.Kind) : Option Lexer := do
  let l ← l.keepKey
  let rest := l.cursor.rest.drop 1
  let chars := rest.takeWhile isNameChar
  let after := rest.drop chars.length
  if chars.isEmpty ||
    !(isGap after || after.head?.any ['?', ':', ',', ']', '\x7d', '%', '@', '\x60'].contains) then none
  return { l.take (kind (String.ofList chars)) (chars.length + 1) with keyAllowed := false }

def isTagChar (c : Char) : Bool :=
  isNameChar c || [';', '/', '?', ':', '@', '&', '=', '+', '$', ',', '.', '%', '!', '~', '*', '\x27', '(', ')', '[',
    ']'].contains c

/-- Whether every percent sign of a tag has two hexadecimal digits after it. -/
def escapesOk : List Char → Bool
  | [] => true
  | '%' :: a :: b :: rest => (hexValue? a).isSome && (hexValue? b).isSome && escapesOk rest
  | c :: rest => c != '%' && escapesOk rest

/-- A tag and its length. A tag of a family of tags with a name is of no use, as none is declared. -/
def tag? (cs : List Char) : Option (String × Nat) := do
  match cs with
  | '!' :: '<' :: rest =>
    let uri := rest.takeWhile isTagChar
    if uri.isEmpty || !escapesOk uri || (rest.drop uri.length).head? != some '>' then none
    return (String.ofList uri, uri.length + 3)
  | '!' :: rest =>
    let family := rest.takeWhile isNameChar
    match rest.drop family.length with
    | '!' :: suffix =>
      let uri := suffix.takeWhile isTagChar
      if uri.isEmpty || !escapesOk uri || !family.isEmpty then none
      return ("!!" ++ String.ofList uri, uri.length + 2)
    | _ =>
      let uri := rest.takeWhile isTagChar
      if !escapesOk uri then none
      return (String.ofList ('!' :: uri), uri.length + 1)
  | _ => none

def tagToken (l : Lexer) : Option Lexer := do
  let l ← l.keepKey
  let (tag, n) ← tag? l.cursor.rest
  if !isGap (l.cursor.rest.drop n) then none
  return { l.take (.tag tag) n with keyAllowed := false }

def block (l : Lexer) (literal : Bool) : Option Lexer := do
  let l ← l.dropKey
  let (text, c) ← blockText literal l.indent (l.bound + 1) (l.cursor.advance 1)
  return { l.add (.scalar (String.ofList text) true) l.cursor.place with cursor := c, keyAllowed := true }

def quoted (l : Lexer) (quote : Char) : Option Lexer := do
  let l ← l.keepKey
  let (text, c) ← quotedText quote (l.bound + 1) [] (l.cursor.advance 1)
  return { l.add (.scalar (String.ofList text) true) l.cursor.place with cursor := c, keyAllowed := false }

def plain (l : Lexer) : Option Lexer := do
  let l ← l.keepKey
  let (p, c) ← plainWords l.inFlow l.indent (l.bound + 1) [] {} l.cursor
  return { l.add (.scalar (String.ofList p.text) false) l.cursor.place with cursor := c, keyAllowed := p.newLine }

/-- Reads the next token, and ends the blocks that end before it. -/
def next (l : Lexer) : Option Lexer :=
  let l := skip (l.bound + 1) l
  let l := l.closeBlocks l.cursor.column
  match l.cursor.rest with
  | [] => l.endOfText
  | ch :: rest =>
    if l.cursor.column = 1 && ch = '%' then (versionDirective? (ch :: rest)).bind (l.documentMark .directive)
    else if l.cursor.atDocumentMark then l.documentMark (if ch = '-' then .documentStart else .documentEnd) 3
    else if ch = '[' then l.openBracket .flowSequence
    else if ch = '\x7b' then l.openBracket .flowMapping
    else if ch = ']' then l.closeBracket .flowSequenceEnd
    else if ch = '\x7d' then l.closeBracket .flowMappingEnd
    else if ch = ',' then l.comma
    else if ch = '-' && isGap rest then l.dash
    else if ch = '?' && (l.inFlow || isGap rest) then l.keyMark
    else if ch = ':' && (l.inFlow || isGap rest) then l.colon
    else if ch = '*' then l.name .reference
    else if ch = '&' then l.name .anchor
    else if ch = '!' then l.tagToken
    else if (ch = '|' || ch = '>') && !l.inFlow then l.block (ch = '|')
    else if ch = '"' || ch = '\x27' then l.quoted ch
    else if startsPlain l.inFlow (ch :: rest) then l.plain
    else none

/-- The tokens that are known for certain when nothing can be read after them. -/
def certain (l : Lexer) : List Token :=
  let waiting := (l.keys.filterMap id).filter fun k => k.isOpen l.cursor
  let n := waiting.foldl (fun n k => min n k.number) (l.count - 2)
  l.tokens.reverse.take n

def run : Nat → Lexer → List Token
  | 0, l => l.certain
  | fuel + 1, l =>
    match l.next with
    | none => l.certain
    | some l => if l.cursor.rest.isEmpty && l.tokens.head?.any (fun t => t.kind == .streamEnd) then l.tokens.reverse
      else run fuel l

end Lexer

/-- The tokens of a text. If it is malformed, they end without the token for its end. -/
def Token.ofChars (cs : List Char) : List Token :=
  let l : Lexer := { cursor := { rest := cs }, bound := cs.length }
  l.run (cs.length + 1)

end TypeInference.Document
