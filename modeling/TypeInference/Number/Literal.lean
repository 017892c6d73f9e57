import TypeInference.Number.Binary64

/-! # Literals

The texts of numbers and truth values in a module.
-/

namespace TypeInference.Literal

def digits? (cs : List Char) : Option Nat :=
  if cs.isEmpty || !cs.all Char.isDigit then none
  else some (cs.foldl (fun n c => n * 10 + (c.toNat - '0'.toNat)) 0)

def sign : List Char → Bool × List Char
  | '-' :: rest => (true, rest)
  | '+' :: rest => (false, rest)
  | rest => (false, rest)

def int? (s : String) : Option Int := do
  let (negative, cs) := sign s.toList
  let n ← digits? cs
  if negative then
    if n ≤ Nat.pow 2 63 then some (-(n : Int)) else none
  else if n < Nat.pow 2 63 then some n else none

def bool? (s : String) : Option Bool :=
  if ["1", "t", "T", "TRUE", "true", "True"].contains s then some true
  else if ["0", "f", "F", "FALSE", "false", "False"].contains s then some false
  else none

/-! ### Floating point numbers -/

/-- The value of a digit of base ten or sixteen. -/
def digitValue? (hex : Bool) (c : Char) : Option Nat :=
  if c.isDigit then some (c.toNat - '0'.toNat)
  else if hex && 'a' ≤ c.toLower && c.toLower ≤ 'f' then some (c.toLower.toNat - 'a'.toNat + 10)
  else none

structure Digits where
  value : Nat := 0
  fraction : Nat := 0
  any : Bool := false
  point : Bool := false

/-- Reads digits and a point, and gives the characters after them. Underscores are skipped. -/
def readDigits (hex : Bool) : Digits → List Char → Digits × List Char
  | d, [] => (d, [])
  | d, c :: rest =>
    if c = '_' then readDigits hex d rest
    else if c = '.' then
      if d.point then (d, c :: rest) else readDigits hex { d with point := true } rest
    else
      match digitValue? hex c with
      | some v =>
        let d := { d with value := d.value * (if hex then 16 else 10) + v, any := true,
                          fraction := if d.point then d.fraction + 1 else d.fraction }
        readDigits hex d rest
      | none => (d, c :: rest)

/-- A digit of an exponent after those before it. Once an exponent has five digits, it takes no more of them. -/
def addToExponent (n : Nat) (c : Char) : Nat := if n < 10000 then n * 10 + (c.toNat - '0'.toNat) else n

/-- The digits of an exponent, underscores apart; nothing if the first character is no digit or one is none. -/
def readExponent (cs : List Char) : Option Int := do
  let (negative, cs) := sign cs
  if !(cs.head?.any Char.isDigit) then none
  let digits := cs.filter (· != '_')
  if !digits.all Char.isDigit then none
  let n := digits.foldl addToExponent 0
  return if negative then -(n : Int) else n

/-- What came last in a number, for the rule of underscores. -/
inductive Last where
  | digit
  | underscore
  | other
deriving DecidableEq

/-- Whether every underscore stands between two digits. -/
def underscoresFrom (hex : Bool) : Last → List Char → Bool
  | last, [] => last != .underscore
  | last, c :: rest =>
    if (digitValue? hex c).isSome then underscoresFrom hex .digit rest
    else if c = '_' then last == .digit && underscoresFrom hex .underscore rest
    else last != .underscore && underscoresFrom hex .other rest

def hexMark : List Char → Bool × List Char
  | '0' :: 'x' :: c :: rest => (true, c :: rest)
  | '0' :: 'X' :: c :: rest => (true, c :: rest)
  | cs => (false, cs)

/-- Limits beyond which a number is too large or too small for its digits to matter. -/
def tooLarge : Int := 400
def tooSmall : Int := -400

def decimal? (value : Nat) (e : Int) : Option Binary64.Finite :=
  let size : Int := (Nat.toDigits 10 value).length + e
  if value = 0 || size < tooSmall then some ⟨0, Binary64.minExponent⟩
  else if size > tooLarge then none
  else if e ≥ 0 then Binary64.nearest? (value * Nat.pow 10 e.toNat) 1
  else Binary64.nearest? value (Nat.pow 10 (-e).toNat)

def hexadecimal? (value : Nat) (e : Int) : Option Binary64.Finite :=
  let size : Int := Nat.log2 value + e
  if value = 0 || size < 4 * tooSmall then some ⟨0, Binary64.minExponent⟩
  else if size > 4 * tooLarge then none
  else if e ≥ 0 then Binary64.nearest? (value * Nat.pow 2 e.toNat) 1
  else Binary64.nearest? value (Nat.pow 2 (-e).toNat)

/-- The size of a number without a sign. A hexadecimal one needs an exponent. -/
def magnitude? (cs : List Char) : Option Binary64.Finite := do
  let (hex, body) := hexMark cs
  if !underscoresFrom hex (if hex then .digit else .other) body then none
  let (d, rest) := readDigits hex {} body
  if !d.any then none
  match rest with
  | [] => if hex then none else decimal? d.value (-(d.fraction : Int))
  | mark :: rest =>
    if mark.toLower != (if hex then 'p' else 'e') then none
    let e ← readExponent rest
    if hex then hexadecimal? d.value (e - 4 * d.fraction) else decimal? d.value (e - d.fraction)

/-- The bits of a floating point number: decimal, hexadecimal, an infinity or the number that is not one. A number that
is too large is none. -/
def float? (s : String) : Option UInt64 :=
  let (negative, cs) := sign s.toList
  let word := String.ofList (cs.map Char.toLower)
  if s.toLower = "nan" then some Binary64.nan
  else if word = "inf" || word = "infinity" then some (Binary64.infinity negative)
  else (magnitude? cs).map fun x => x.bits negative

end TypeInference.Literal
