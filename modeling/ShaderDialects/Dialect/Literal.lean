import ShaderDialects.Text.Shortest

namespace ShaderDialects

/-- Numbers from `10 ^ -4` up to `10 ^ 16` are written without an exponent. -/
def isPositional (leading : Int) : Bool := -4 ≤ leading ∧ leading < 16

def positionalText (digits : List Char) (exponent : Int) : String :=
  if 0 ≤ exponent then
    String.ofList (digits ++ List.replicate exponent.toNat '0') ++ ".0"
  else
    let places := (-exponent).toNat
    let padded := List.replicate (places + 1 - digits.length) '0' ++ digits
    let whole := padded.length - places
    String.ofList (padded.take whole) ++ "." ++ String.ofList (padded.drop whole)

def scientificText (digits : List Char) (leading : Int) : String :=
  let mantissa := match digits with
    | d :: e :: rest => d :: '.' :: e :: rest
    | short => short
  String.ofList mantissa ++ "e" ++ toString leading

def Single.Decimal.text (d : Single.Decimal) : String :=
  let digits := (toString d.digits).toList
  let leading := d.exponent + (digits.length : Int) - 1
  if isPositional leading then positionalText digits d.exponent else scientificText digits leading

def Single.magnitudeText (x : Single) : String :=
  if x.isInfinite then "inf"
  else if x.significand = 0 then "0.0"
  else (x.shortest.trim 9).text

def Single.text (x : Single) : String :=
  if x.isNaN then "NaN"
  else if x.isNegative then "-" ++ x.magnitudeText
  else x.magnitudeText

def Literal.text : Literal → String
  | bool true => "true"
  | bool false => "false"
  | int n => if n = Int32.minValue then "(-2147483647 - 1)" else toString n.toInt
  | uint n => toString n.toNat ++ "u"
  | float x => x.text

end ShaderDialects
