/-! # Durations

Lengths of time as text: numbers with units, one after the other, as in `1h2m3s` or `1.5h`. They are counted in
nanoseconds and fit in 64 bits with a sign.
-/

namespace TypeInference.Duration

def unit? : String → Option Nat
  | "ns" => some 1
  | "us" | "µs" | "μs" => some 1000
  | "ms" => some 1000000
  | "s" => some 1000000000
  | "m" => some 60000000000
  | "h" => some 3600000000000
  | _ => none

/-- The greatest number of nanoseconds before a sign is put to it. -/
def limit : Nat := Nat.pow 2 63

def digit (c : Char) : Nat := c.toNat - '0'.toNat

/-- The value of digits before the point; nothing if it is too large. -/
def whole? (cs : List Char) : Option Nat :=
  let n := cs.foldl (fun n c => n * 10 + digit c) 0
  if n ≤ limit then some n else none

/-- Digits after the point that have been read: their value, and the power of ten that it is counted in. -/
structure Fraction where
  value : Nat := 0
  scale : Float := 1.0
  /-- Whether the value has no room for more digits. -/
  full : Bool := false

namespace Fraction

/-- Adds a digit, if there is room for it. -/
def push (f : Fraction) (c : Char) : Fraction :=
  if f.full then f
  else if f.value > (limit - 1) / 10 then { f with full := true }
  else
    let value := f.value * 10 + digit c
    if value > limit then { f with full := true } else { f with value := value, scale := f.scale * 10.0 }

def ofUnit (f : Fraction) (unit : Nat) : Nat :=
  if f.value = 0 then 0 else (Float.ofNat f.value * (Float.ofNat unit / f.scale)).toUInt64.toNat

end Fraction

def isNumeric (c : Char) : Bool := c == '.' || c.isDigit

/-- The sum of numbers with units; the first argument bounds how many there are. -/
def sum? : Nat → List Char → Option Nat
  | _, [] => some 0
  | 0, _ => none
  | fuel + 1, cs => do
    let digits := cs.takeWhile Char.isDigit
    let v ← whole? digits
    let rest := cs.drop digits.length
    let decimals := if rest.head? = some '.' then (rest.drop 1).takeWhile Char.isDigit else []
    let rest := if rest.head? = some '.' then rest.drop (1 + decimals.length) else rest
    if digits.isEmpty && decimals.isEmpty then none
    let name := rest.takeWhile fun c => !isNumeric c
    let unit ← unit? (String.ofList name)
    if v > limit / unit then none
    let v := v * unit + (decimals.foldl Fraction.push {}).ofUnit unit
    if v > limit then none
    let more ← sum? fuel (rest.drop name.length)
    if v + more > limit then none else some (v + more)

def read (s : String) : Option Int :=
  let (negative, cs) := match s.toList with
    | '-' :: rest => (true, rest)
    | '+' :: rest => (false, rest)
    | rest => (false, rest)
  if cs = ['0'] then some 0
  else if cs.isEmpty then none
  else do
    let n ← sum? cs.length cs
    if negative then some (-(n : Int)) else if n < limit then some n else none

end TypeInference.Duration
