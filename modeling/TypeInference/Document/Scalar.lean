import TypeInference.Document.Cursor

/-! # Scalars

The three ways to write a scalar: plain, between quotes, and as a block of lines. A scalar may go on over several lines,
which are folded into one. The first argument of every reader bounds its steps; the length of the text is always enough.
-/

namespace TypeInference.Document

/-! ### Plain scalars -/

def isBracket (c : Char) : Bool := c == ',' || c == '[' || c == ']' || c == '\x7b' || c == '\x7d'

/-- The characters that mean something else at the start of a scalar. -/
def startMarks : List Char := ['#', '&', '*', '!', '|', '>', '%', '@', '\x60', '"', '\x27']

/-- Whether a plain scalar starts here. Inside brackets a colon or a question mark never starts one. -/
def startsPlain (inFlow : Bool) : List Char → Bool
  | [] => false
  | c :: rest =>
    if c = '-' then !isGap rest
    else if c = ':' || c = '?' then !inFlow && !isGap rest
    else !isBlank c && !isBreak c && !isBracket c && !startMarks.contains c

/-- A word of a plain scalar. Inside brackets it ends at a question mark too. -/
def plainWord (inFlow : Bool) : List Char → List Char
  | [] => []
  | c :: rest =>
    if isBlank c || isBreak c || (c = ':' && isGap rest) || (inFlow && (isBracket c || c = '?')) then []
    else c :: plainWord inFlow rest

structure Plain where
  text : List Char := []
  /-- Whether it ended at a new line. -/
  newLine : Bool := false

/-- The words of a plain scalar after `text`, which is given backwards, and a separation. Outside brackets a scalar goes
on only in lines that start after column `indent`. -/
def plainWords (inFlow : Bool) (indent : Nat) : Nat → List Char → Separation → Cursor → Option (Plain × Cursor)
  | 0, _, _, _ => none
  | fuel + 1, text, gap, c =>
    if c.atDocumentMark || c.isAt (· == '#') then some (⟨text.reverse, !gap.breaks.isEmpty⟩, c)
    else
      let word := plainWord inFlow c.rest
      let after := c.advance word.length
      let text := if word.isEmpty then text else word.reverse ++ (gap.folded.reverse ++ text)
      let gap := if word.isEmpty then gap else {}
      if !(after.isAt fun ch => isBlank ch || isBreak ch) then some (⟨text.reverse, !gap.breaks.isEmpty⟩, after)
      else do
        let (gap, next) ← Separation.read indent (fuel + 1) {} after
        if !inFlow && next.column ≤ indent then some (⟨text.reverse, !gap.breaks.isEmpty⟩, next)
        else plainWords inFlow indent fuel text gap next

/-! ### Quoted scalars -/

def hexValue? (c : Char) : Option Nat :=
  if c.isDigit then some (c.toNat - '0'.toNat)
  else if 'a' ≤ c && c ≤ 'f' then some (c.toNat - 'a'.toNat + 10)
  else if 'A' ≤ c && c ≤ 'F' then some (c.toNat - 'A'.toNat + 10)
  else none

def hexNumber? (digits : List Char) : Option Nat :=
  digits.foldlM (fun n c => (hexValue? c).map (n * 16 + ·)) 0

def character? (n : Nat) : Option Char := if n.isValidChar then some (Char.ofNat n) else none

/-- The character of an escape letter that takes no digits. -/
def escapeLetter? : Char → Option Char
  | '"' => some '"'
  | '\x27' => some '\x27'
  | '\\' => some '\\'
  | '/' => some '/'
  | 'b' => some '\x08'
  | 'f' => some '\x0c'
  | 'n' => some '\n'
  | 'r' => some '\r'
  | 't' => some '\t'
  | '0' => some '\x00'
  | 'a' => some '\x07'
  | 'v' => some '\x0b'
  | 'e' => some '\x1b'
  | ' ' => some ' '
  | '\t' => some '\t'
  | 'N' => some '\u0085'
  | '_' => some '\u00a0'
  | 'L' => some '\u2028'
  | 'P' => some '\u2029'
  | _ => none

/-- The number of digits after an escape letter that takes some. -/
def escapeWidth? : Char → Option Nat
  | 'x' => some 2
  | 'u' => some 4
  | 'U' => some 8
  | _ => none

/-- An escape, from the letter after the backslash on: its character, and how many characters were read. -/
def escape? : List Char → Option (Char × Nat)
  | [] => none
  | letter :: rest =>
    match escapeLetter? letter, escapeWidth? letter with
    | some c, _ => some (c, 1)
    | none, some width =>
      if rest.length < width then none
      else ((hexNumber? (rest.take width)).bind character?).map fun c => (c, 1 + width)
    | none, none => none

/-- The text up to a closing quote, after `text`, which is given backwards. Between single quotes two quotes stand for
one; between double quotes a backslash escapes the next character, and at the end of a line it keeps the line end
out. -/
def quotedText (quote : Char) : Nat → List Char → Cursor → Option (List Char × Cursor)
  | 0, _, _ => none
  | fuel + 1, text, c =>
    if c.atDocumentMark then none
    else
      match c.rest with
      | [] => none
      | ch :: rest =>
        if isBlank ch || isBreak ch then do
          let (gap, c) ← Separation.read 0 (fuel + 1) {} c
          quotedText quote fuel (gap.folded.reverse ++ text) c
        else if ch = quote then
          if quote = '\x27' && rest.head? == some quote then quotedText quote fuel (quote :: text) (c.advance 2)
          else some (text.reverse, c.advance 1)
        else if quote = '"' && ch = '\\' then
          if rest.head?.any isBreak then do
            let (gap, c) ← Separation.read 0 (fuel + 1) { breaks := ['\n'] } (c.advance 1).takeBreak.2
            quotedText quote fuel ((gap.breaks.drop 1).reverse ++ text) c
          else do
            let (escaped, n) ← escape? rest
            quotedText quote fuel (escaped :: text) (c.advance (n + 1))
        else quotedText quote fuel (ch :: text) (c.advance 1)

/-! ### Block scalars -/

inductive Chomp where
  | strip
  | clip
  | keep
deriving DecidableEq

/-- The head of a block scalar: what becomes of its last line ends, and how far its lines are indented, if it says
so. -/
structure BlockHead where
  chomp : Chomp := .clip
  increment : Option Nat := none

/-- A sign and a digit in any order, and the characters after them. -/
def blockHead : List Char → Option (BlockHead × List Char)
  | cs =>
    let chomp? : Char → Option Chomp := fun c => if c = '+' then some .keep else if c = '-' then some .strip else none
    let digit? : Char → Option Nat := fun c => if c.isDigit then some (c.toNat - '0'.toNat) else none
    match cs with
    | [] => some ({}, [])
    | a :: rest =>
      match chomp? a, digit? a, rest with
      | some chomp, _, b :: rest =>
        match digit? b with
        | some 0 => none
        | some n => some ({ chomp := chomp, increment := some n }, rest)
        | none => some ({ chomp := chomp }, b :: rest)
      | some chomp, _, [] => some ({ chomp := chomp }, [])
      | none, some 0, _ => none
      | none, some n, b :: rest =>
        match chomp? b with
        | some chomp => some ({ chomp := chomp, increment := some n }, rest)
        | none => some ({ increment := some n }, b :: rest)
      | none, some n, [] => some ({ increment := some n }, [])
      | none, none, _ => some ({}, a :: rest)

/-- Skips empty lines and the indentation of the next line that is not empty, of which `indent` columns count if they
are known. Gives the line ends, and the widest indentation that was met. -/
def blockBreaks (indent : Option Nat) : Nat → List Char → Nat → Cursor → Option (List Char × Nat × Cursor)
  | 0, _, _, _ => none
  | fuel + 1, breaks, widest, c =>
    let open' := indent.all fun n => c.column ≤ n
    match c.rest with
    | [] => some (breaks, max widest (c.column - 1), c)
    | ch :: _ =>
      if ch = ' ' && open' then blockBreaks indent fuel breaks widest (c.advance 1)
      else if ch = '\t' && open' then none
      else if isBreak ch then
        let (kept, next) := c.takeBreak
        blockBreaks indent fuel (breaks ++ [kept]) (max widest (c.column - 1)) next
      else some (breaks, max widest (c.column - 1), c)

/-- The lines of a block scalar, which are indented by `indent` columns, after `text`, the line end of the line before,
and the empty lines after that. Lines that start with a blank are not folded. Gives the text without the line ends at
its end, and these. -/
def blockLines (literal : Bool) (indent : Nat) :
    Nat → List Char → List Char → List Char → Bool → Cursor → Option (List Char × List Char × List Char × Cursor)
  | 0, _, _, _, _, _ => none
  | fuel + 1, text, lead, breaks, blankBefore, c =>
    if c.column ≠ indent + 1 || c.rest.isEmpty then some (text, lead, breaks, c)
    else do
      let blank := c.isAt isBlank
      let fold := !literal && !blankBefore && !blank && lead.head? == some '\n'
      let text := text ++ (if fold then if breaks.isEmpty then [' '] else [] else lead) ++ breaks
      let line := c.rest.takeWhile (!isBreak ·)
      let c := c.advance line.length
      let (lead, c) := if c.rest.isEmpty then ([], c) else (fun (b, c) => ([b], c)) c.takeBreak
      let (breaks, _, c) ← blockBreaks (some indent) (fuel + 1) [] 0 c
      blockLines literal indent fuel (text ++ line) lead breaks blank c

/-- A block scalar, from the character after its mark on. Its lines are indented further than the block around it, whose
column is `parent`. -/
def blockText (literal : Bool) (parent fuel : Nat) (c : Cursor) : Option (List Char × Cursor) := do
  let (head, rest) ← blockHead c.rest
  let c := (c.advance (c.rest.length - rest.length)).skipWhile isBlank
  let c := if c.isAt (· == '#') then c.skipWhile (!isBreak ·) else c
  if !(c.rest.isEmpty || c.isAt isBreak) then none
  let c := if c.rest.isEmpty then c else c.takeBreak.2
  let known := head.increment.map fun n => parent - 1 + n
  let (breaks, widest, c) ← blockBreaks known fuel [] 0 c
  let indent := known.getD (max (max widest parent) 1)
  let (text, lead, breaks, c) ← blockLines literal indent fuel [] [] breaks false c
  return (text ++ (if head.chomp = .strip then [] else lead) ++ (if head.chomp = .keep then breaks else []), c)

end TypeInference.Document
