import TypeInference.Text.Printable

/-! # Quoted text

A text between double quotes. Quotes and backslashes are escaped, the usual control characters have a letter
of their own, other ASCII controls are written with two hexadecimal digits, and characters that are not
printable with four or eight.
-/

namespace TypeInference.Text

/-- The last `width` hexadecimal digits of a number, in lower case. -/
def hexDigits : Nat → Nat → List Char
  | 0, _ => []
  | width + 1, n => hexDigits width (n / 16) ++ [Nat.digitChar (n % 16)]

def escapeChar (c : Char) : List Char :=
  match c with
  | '"' => ['\\', '"']
  | '\\' => ['\\', '\\']
  | '\x07' => ['\\', 'a']
  | '\x08' => ['\\', 'b']
  | '\x0c' => ['\\', 'f']
  | '\n' => ['\\', 'n']
  | '\r' => ['\\', 'r']
  | '\t' => ['\\', 't']
  | '\x0b' => ['\\', 'v']
  | c =>
    if isPrintable c then [c]
    else if c.toNat < 0x20 || c.toNat = 0x7f then '\\' :: 'x' :: hexDigits 2 c.toNat
    else if c.toNat < 0x10000 then '\\' :: 'u' :: hexDigits 4 c.toNat
    else '\\' :: 'U' :: hexDigits 8 c.toNat

def quote (s : String) : String :=
  String.ofList ('"' :: s.toList.flatMap escapeChar ++ ['"'])

/-- The characters that end within the first bytes of a text, and the bytes of the next one that do. -/
def bytePrefix : Nat → List Char → List Char × List UInt8
  | _, [] => ([], [])
  | bytes, c :: rest =>
    if c.utf8Size ≤ bytes then
      let (cs, cut) := bytePrefix (bytes - c.utf8Size) rest
      (c :: cs, cut)
    else ([], (String.singleton c).toUTF8.toList.take bytes)

/-- The first bytes of a text between double quotes; a character that is cut is shown by its bytes. -/
def quoteBytes (bytes : Nat) (s : String) : String :=
  let (cs, cut) := bytePrefix bytes s.toList
  let shown := cut.flatMap fun b => '\\' :: 'x' :: hexDigits 2 b.toNat
  String.ofList ('"' :: cs.flatMap escapeChar ++ shown ++ ['"'])

end TypeInference.Text
