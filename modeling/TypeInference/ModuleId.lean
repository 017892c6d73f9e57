import TypeInference.Text.Quoted

/-! # Module identifiers

An identifier of 128 bits as text: 32 hexadecimal digits, alone or in groups with dashes between them, the latter also
in braces or after `urn:uuid:`. It is kept in lower case with dashes.
-/

namespace TypeInference.ModuleId

inductive Problem where
  /-- No form has this number of bytes. -/
  | length (bytes : Nat)
  /-- Something else stands where `urn:uuid:` should. -/
  | heading (text : String)
  | format
deriving DecidableEq, Repr

def Problem.message : Problem → String
  | .length bytes => s!"invalid UUID length: {bytes}"
  | .heading text => s!"invalid urn prefix: {Text.quoteBytes 9 text}"
  | .format => "invalid UUID format"

def isHex (c : Char) : Bool := c.isDigit || ('a' ≤ c.toLower && c.toLower ≤ 'f')

def groups : List Nat := [8, 4, 4, 4, 12]

def readGroups : List Nat → List Char → Option (List (List Char))
  | [], _ => some []
  | [n], cs => if (cs.take n).length = n && (cs.take n).all isHex then some [cs.take n] else none
  | n :: rest, cs => do
    if !(cs.take n).all isHex || (cs.drop n).head? != some '-' then none
    let more ← readGroups rest (cs.drop (n + 1))
    return cs.take n :: more

def cutGroups : List Nat → List Char → List (List Char)
  | [], _ => []
  | n :: rest, cs => cs.take n :: cutGroups rest (cs.drop n)

def join (gs : List (List Char)) : String :=
  "-".intercalate (gs.map fun g => String.ofList (g.map Char.toLower))

def dashed (cs : List Char) : Except Problem String :=
  match readGroups groups cs with
  | some gs => .ok (join gs)
  | none => .error .format

def read (s : String) : Except Problem String :=
  let cs := s.toList
  match s.utf8ByteSize with
  | 36 => dashed cs
  | 38 => if (cs.head?.any fun c => c.utf8Size = 1) then dashed (cs.drop 1) else .error .format
  | 45 =>
    if String.ofList ((cs.take 9).map Char.toLower) = "urn:uuid:" then dashed (cs.drop 9) else .error (.heading s)
  | 32 => if cs.length = 32 && cs.all isHex then .ok (join (cutGroups groups cs)) else .error .format
  | n => .error (.length n)

end TypeInference.ModuleId
