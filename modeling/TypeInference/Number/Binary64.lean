/-! # Double precision numbers

Binary floating point numbers of 64 bits, by their bits. A number is given as a quotient of natural numbers and rounded
to the nearest one that can be represented, ties to the even one.
-/

namespace TypeInference.Binary64

/-- A positive number `mantissa · 2 ^ exponent` that can be represented exactly. -/
structure Finite where
  mantissa : Nat
  exponent : Int
deriving DecidableEq, Repr, Inhabited

def minExponent : Int := -1074

def maxExponent : Int := 971

/-- The quotient of two numbers, rounded to the nearest integer, ties to the even one. -/
def roundDiv (n d : Nat) : Nat :=
  let q := n / d
  let r := n % d
  if 2 * r < d then q
  else if 2 * r > d then q + 1
  else if q % 2 = 0 then q else q + 1

def scale (n d : Nat) (e : Int) : Nat × Nat :=
  if e ≥ 0 then (n, d * Nat.pow 2 e.toNat) else (n * Nat.pow 2 (-e).toNat, d)

/-- The exponent for which `n / d` has a mantissa of 53 bits, unless that is too small. -/
def exponentFor (n d : Nat) : Int :=
  let e : Int := (Nat.log2 n : Int) - Nat.log2 d - 52
  let (a, b) := scale n d e
  let e := if a / b < Nat.pow 2 52 then e - 1 else e
  max e minExponent

/-- The number nearest to `n / d`; nothing if it is too large. -/
def nearest? (n d : Nat) : Option Finite :=
  if n = 0 then some ⟨0, minExponent⟩
  else
    let e := exponentFor n d
    let (a, b) := scale n d e
    let m := roundDiv a b
    let (m, e) := if m = Nat.pow 2 53 then (Nat.pow 2 52, e + 1) else (m, e)
    if e > maxExponent then none else some ⟨m, e⟩

namespace Finite

def bits (x : Finite) (negative : Bool) : UInt64 :=
  let magnitude :=
    if x.mantissa < Nat.pow 2 52 then x.mantissa
    else (x.exponent - minExponent + 1).toNat * Nat.pow 2 52 + (x.mantissa - Nat.pow 2 52)
  UInt64.ofNat (magnitude + if negative then Nat.pow 2 63 else 0)

end Finite

def infinity (negative : Bool) : UInt64 := UInt64.ofNat (2047 * Nat.pow 2 52 + if negative then Nat.pow 2 63 else 0)

/-- The bits of the number that is not one. -/
def nan : UInt64 := 0x7FF8000000000001

inductive Class where
  | nan
  | infinite (negative : Bool)
  | finite (negative : Bool) (x : Finite)
deriving DecidableEq, Repr, Inhabited

def classify (bits : UInt64) : Class :=
  let n : Nat := bits.toNat
  let negative := n ≥ Nat.pow 2 63
  let field : Nat := n / Nat.pow 2 52 % 2048
  let fraction : Nat := n % Nat.pow 2 52
  if field = 2047 then
    if fraction = 0 then .infinite negative else .nan
  else if field = 0 then .finite negative ⟨fraction, minExponent⟩
  else .finite negative ⟨Nat.pow 2 52 + fraction, minExponent + (field : Int) - 1⟩

end TypeInference.Binary64
