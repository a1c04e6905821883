import ShaderDialects.Literal

namespace ShaderDialects.Single

def isNegative (x : Single) : Bool := 0x80000000 ≤ x.bits

def exponentBits (x : Single) : Nat := (x.bits >>> 23).toNat % 256

def fractionBits (x : Single) : Nat := x.bits.toNat % 0x800000

def isNaN (x : Single) : Bool := x.exponentBits = 255 ∧ x.fractionBits ≠ 0

def isInfinite (x : Single) : Bool := x.exponentBits = 255 ∧ x.fractionBits = 0

/-- The magnitude of a finite number is `x.significand * 2 ^ x.exponent`. -/
def significand (x : Single) : Nat :=
  if x.exponentBits = 0 then x.fractionBits else 0x800000 + x.fractionBits

def exponent (x : Single) : Int := (max x.exponentBits 1 : Nat) - 150

def power (b : Nat) (k : Int) : Nat := Nat.pow b k.toNat

def decimalLe (d : Nat) (k : Int) (n : Nat) (e : Int) : Bool :=
  d * power 10 k * power 2 (-e) ≤ n * power 2 e * power 10 (-k)

def leDecimal (n : Nat) (e : Int) (d : Nat) (k : Int) : Bool :=
  n * power 2 e * power 10 (-k) ≤ d * power 10 k * power 2 (-e)

structure Decimal where
  digits : Nat
  exponent : Int

variable (x : Single)

/-- Four times the lower end of the interval, in units of `2 ^ x.exponent`. Numbers are closer
together below a power of two. -/
def lowerEnd : Nat :=
  if x.significand = 0x800000 then 4 * x.significand - 1 else 4 * x.significand - 2

def upperEnd : Nat := 4 * x.significand + 2

/-- Whether a decimal rounds to the magnitude of the number. -/
def isNearestTo (d : Decimal) : Bool :=
  let e := x.exponent - 2
  let aboveLower := leDecimal x.lowerEnd e d.digits d.exponent
  let belowUpper := decimalLe d.digits d.exponent x.upperEnd e
  if x.significand % 2 = 0 then aboveLower && belowUpper
  else
    aboveLower && belowUpper && !decimalLe d.digits d.exponent x.lowerEnd e
      && !leDecimal x.upperEnd e d.digits d.exponent

def magnitude : Int :=
  let powers := (List.range 84).filter fun (i : Nat) =>
    decimalLe 1 ((i : Int) - 45) x.significand x.exponent
  (powers.length : Int) - 46

/-- The largest multiple of `10 ^ k` that does not exceed the magnitude of the number. -/
def floorAt (k : Int) : Nat :=
  x.significand * power 2 x.exponent * power 10 (-k) / (power 10 k * power 2 (-x.exponent))

/-- The decimal with `n` digits which is nearest to the number and rounds to it, if there is one.
The greater of two that are equally near is taken. -/
def withDigits? (n : Nat) : Option Decimal :=
  let k := x.magnitude - (n - 1 : Nat)
  let below : Decimal := ⟨x.floorAt k, k⟩
  let above : Decimal := ⟨x.floorAt k + 1, k⟩
  let nearerAbove := decimalLe (below.digits + above.digits) k (2 * x.significand) x.exponent
  match x.isNearestTo below, x.isNearestTo above with
  | true, true => some (if nearerAbove then above else below)
  | true, false => some below
  | false, true => some above
  | false, false => none

def shortest : Decimal :=
  match (List.range 9).findSome? fun n => x.withDigits? (n + 1) with
  | some d => d
  | none => ⟨x.floorAt (x.magnitude - 8), x.magnitude - 8⟩

def Decimal.trim : Nat → Decimal → Decimal
  | 0, d => d
  | n + 1, d =>
      if d.digits ≠ 0 ∧ d.digits % 10 = 0 then trim n ⟨d.digits / 10, d.exponent + 1⟩ else d

end ShaderDialects.Single
