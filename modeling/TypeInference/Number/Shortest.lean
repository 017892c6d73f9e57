import TypeInference.Number.Binary64

/-! # Shortest decimals

The decimal with the fewest digits that reads back as a given double precision number, and of those the nearest. It is
written with an exponent when that is below -4 or at least 6.
-/

namespace TypeInference.Binary64

/-- A decimal: the digits of `value` with the point after the first `point` of them. -/
structure Decimal where
  digits : List Char
  point : Int
deriving DecidableEq, Repr, Inhabited

namespace Finite

/-- Whether `n / d` is rounded to the number: it lies between the middles to its neighbours, ends included if the
mantissa is even. All is in quarters of the unit of the number. -/
def absorbs (x : Finite) (n d : Nat) : Bool :=
  let (a, b) := scale n d (x.exponent - 2)
  let low := 4 * x.mantissa - if x.mantissa = Nat.pow 2 52 && x.exponent > minExponent then 1 else 2
  let high := 4 * x.mantissa + 2
  if x.mantissa % 2 = 0 then low * b ≤ a && a ≤ high * b else low * b < a && a < high * b

def quotient (x : Finite) : Nat × Nat :=
  if x.exponent ≥ 0 then (x.mantissa * Nat.pow 2 x.exponent.toNat, 1) else (x.mantissa, Nat.pow 2 (-x.exponent).toNat)

end Finite

def timesTen (n d : Nat) (k : Int) : Nat × Nat :=
  if k ≥ 0 then (n * Nat.pow 10 k.toNat, d) else (n, d * Nat.pow 10 (-k).toNat)

/-- The number of digits of `n / d` before the point; it is not positive below a tenth. The first argument bounds the
search upward from `k`. -/
def pointAfter (n d : Nat) : Nat → Int → Int
  | 0, k => k
  | fuel + 1, k =>
    let (a, b) := timesTen n d (-k)
    if a < b then k else pointAfter n d fuel (k + 1)

/-- The place of the decimal point of a number between the smallest and the largest one. -/
def decimalPoint (n d : Nat) : Int :=
  let estimate : Int := ((Nat.log2 n : Int) - Nat.log2 d - 1) * 30103 / 100000 - 2
  pointAfter n d 8 estimate

/-- A decimal of at most `count` digits that is rounded to the number, the nearest one, for the first count from `count`
on for which there is one. -/
def shortestFrom (x : Finite) (n d : Nat) (point : Int) : Nat → Nat → Nat × Nat
  | 0, count => (0, count)
  | fuel + 1, count =>
    let k := (count : Int) - point
    let (a, b) := timesTen n d k
    let below := a / b
    let fits (m : Nat) : Bool :=
      let (p, q) := timesTen m 1 (-k)
      x.absorbs p q
    let nearer := roundDiv a b
    let farther := if nearer = below then below + 1 else below
    if fits nearer then (nearer, count)
    else if fits farther then (farther, count)
    else shortestFrom x n d point fuel (count + 1)

def shortest (x : Finite) : Decimal :=
  let (n, d) := x.quotient
  let point := decimalPoint n d
  let (m, count) := shortestFrom x n d point 17 1
  let digits := Nat.toDigits 10 m
  let kept := (digits.reverse.dropWhile (· == '0')).reverse
  ⟨kept, point + (digits.length - count : Int)⟩

/-- Digits of an exponent, two at least. -/
def exponentText (e : Int) : String :=
  let digits := toString e.natAbs
  (if e < 0 then "e-" else "e+") ++ (if digits.length < 2 then "0" ++ digits else digits)

namespace Decimal

def zeros (n : Nat) : String := String.ofList (List.replicate n '0')

def text (x : Decimal) : String :=
  let e := x.point - 1
  let digits := String.ofList x.digits
  if e < -4 || e ≥ 6 then
    let fraction := x.digits.drop 1
    String.ofList (x.digits.take 1) ++ (if fraction.isEmpty then "" else "." ++ String.ofList fraction) ++
      exponentText e
  else if x.point ≤ 0 then "0." ++ zeros (-x.point).toNat ++ digits
  else
    let n := x.point.toNat
    if x.digits.length ≤ n then digits ++ zeros (n - x.digits.length)
    else String.ofList (x.digits.take n) ++ "." ++ String.ofList (x.digits.drop n)

end Decimal

def text (bits : UInt64) : String :=
  match classify bits with
  | .nan => "NaN"
  | .infinite negative => if negative then "-Inf" else "+Inf"
  | .finite negative x =>
    (if negative then "-" else "") ++ if x.mantissa = 0 then "0" else (shortest x).text

end TypeInference.Binary64
