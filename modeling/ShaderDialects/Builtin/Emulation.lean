import ShaderDialects.Dialect.Tree

namespace ShaderDialects

open Dialect (Stmt)

namespace Emulation

inductive Body where
  | function (params : List (String × Leaf)) (result : Leaf) (body : List Stmt)
  | constant (leaf : Leaf) (value : Dialect.Expr)

end Emulation

/-- Besides those listed, a table may bring emulations of its own. -/
inductive Emulation where
  | remainder
  | round
  | truncate
  | sinh
  | cosh
  | tanh
  | isNaN
  | transpose
  | determinant
  | inverse
  | pi
  | custom (symbol description : String) (body : Signature → Emulation.Body)

namespace Emulation

def all : List Emulation :=
  [remainder, round, truncate, sinh, cosh, tanh, isNaN, transpose, determinant, inverse, pi]

def symbol : Emulation → String
  | remainder => "rem"
  | round => "round"
  | truncate => "trunc"
  | sinh => "sinh"
  | cosh => "cosh"
  | tanh => "tanh"
  | isNaN => "isnan"
  | transpose => "transpose"
  | determinant => "determinant"
  | inverse => "inverse"
  | pi => "pi"
  | custom symbol _ _ => symbol

def ofSymbol? (s : String) : Option Emulation := all.find? fun e => e.symbol = s

def description : Emulation → String
  | remainder => "truncated remainder"
  | round => "round half up"
  | truncate => "truncate toward zero"
  | sinh => "exponential sinh"
  | cosh => "exponential cosh"
  | tanh => "exponential tanh"
  | isNaN => "self-inequality"
  | transpose => "component shuffle"
  | determinant => "Laplace expansion"
  | inverse => "adjugate over determinant"
  | pi => "pi constant"
  | custom _ description _ => description

def zeroPointFive : Dialect.Expr := .literal (.float ⟨0x3F000000⟩)

def one : Dialect.Expr := .literal (.float ⟨0x3F800000⟩)

def two : Dialect.Expr := .literal (.float ⟨0x40000000⟩)

def ten : Dialect.Expr := .literal (.float ⟨0x41200000⟩)

def minusTen : Dialect.Expr := .literal (.float ⟨0xC1200000⟩)

def nearestPi : Dialect.Expr := .literal (.float ⟨0x40490FDB⟩)

/-- The type of a parameter; one that the signature lacks takes the result type. -/
def paramLeaf (signature : Signature) (i : Nat) : Leaf :=
  match signature with
  | .function params result => params[i]?.getD result
  | .value leaf => leaf

def remainderValue : Dialect.Expr :=
  .binary .subtract (.var "a") (.binary .multiply (.var "b") (.binary .divide (.var "a") (.var "b")))

def roundValue : Dialect.Expr := .native "floor" [.binary .add (.var "x") zeroPointFive]

def truncateValue : Dialect.Expr :=
  .binary .multiply (.native "sign" [.var "x"]) (.native "floor" [.native "abs" [.var "x"]])

/-- Half the sum or difference of the exponentials of `x` and `-x`. -/
def exponentialPair (op : Dialect.BinaryOp) : Dialect.Expr :=
  .binary .multiply
    (.binary op (.native "exp" [.var "x"]) (.native "exp" [.unary .negate (.var "x")]))
    zeroPointFive

/-- The exponential of `2x`, for `x` cut off where the result has long reached its limit. -/
def doubledExponential : Dialect.Expr :=
  .native "exp" [.binary .multiply two (.native "clamp" [.var "x", minusTen, ten])]

def tanhValue : Dialect.Expr :=
  .binary .divide (.binary .subtract (.var "e") one) (.binary .add (.var "e") one)

def isNaNValue : Leaf → Dialect.Expr
  | .vector _ _ => .native "notEqual" [.var "x", .var "x"]
  | _ => .binary .notEqual (.var "x") (.var "x")

/-- Columns and rows; what is not a matrix counts as a single element. -/
def shape : Leaf → Nat × Nat
  | .matrix columns rows => (columns.length, rows.length)
  | _ => (1, 1)

def element (column row : Nat) : Dialect.Expr := .index (.index (.var "m") column) row

def alternate (sum : Dialect.Expr) (plus : Bool) : List Dialect.Expr → Dialect.Expr
  | [] => sum
  | t :: ts => alternate (.binary (if plus then .add else .subtract) sum t) (!plus) ts

/-- The determinant of the part of `m` made of these columns and rows, by expansion along the first
of the columns. -/
def minor : List Nat → List Nat → Dialect.Expr
  | [], _ => one
  | _, [] => one
  | [column], row :: _ => element column row
  | column :: columns, rows =>
      let terms := rows.map fun row =>
        .binary .multiply (element column row) (minor columns (rows.filter (· ≠ row)))
      match terms with
      | [] => one
      | t :: ts => alternate t false ts

def determinantValue (n : Nat) : Dialect.Expr := minor (List.range n) (List.range n)

/-- The element of the inverse at a column and row: the cofactor of the transposed place over the
determinant, which the local `d` holds. -/
def inverseElement (n column row : Nat) : Dialect.Expr :=
  let cofactor := minor ((List.range n).filter (· ≠ row)) ((List.range n).filter (· ≠ column))
  let signed := if (row + column) % 2 = 1 then .unary .negate cofactor else cofactor
  .binary .divide signed (.var "d")

def inverseElements (n : Nat) : List Dialect.Expr :=
  (List.range n).flatMap fun column => (List.range n).map fun row => inverseElement n column row

def transposeElements (columns rows : Nat) : List Dialect.Expr :=
  (List.range rows).flatMap fun j => (List.range columns).map fun i => element i j

def unaryFunction (signature : Signature) (param : String) (body : List Stmt) : Body :=
  .function [(param, paramLeaf signature 0)] signature.result body

def build (e : Emulation) (signature : Signature) : Body :=
  match e with
  | remainder =>
      .function [("a", paramLeaf signature 0), ("b", paramLeaf signature 1)] signature.result
        [.return remainderValue]
  | round => unaryFunction signature "x" [.return roundValue]
  | truncate => unaryFunction signature "x" [.return truncateValue]
  | sinh => unaryFunction signature "x" [.return (exponentialPair .subtract)]
  | cosh => unaryFunction signature "x" [.return (exponentialPair .add)]
  | tanh =>
      unaryFunction signature "x"
        [.declare "e" (.leaf (paramLeaf signature 0)) (some doubledExponential), .return tanhValue]
  | isNaN => unaryFunction signature "x" [.return (isNaNValue (paramLeaf signature 0))]
  | transpose =>
      let (columns, rows) := shape (paramLeaf signature 0)
      unaryFunction signature "m"
        [.return (.native signature.result.name (transposeElements columns rows))]
  | determinant =>
      unaryFunction signature "m" [.return (determinantValue (shape (paramLeaf signature 0)).1)]
  | inverse =>
      let leaf := paramLeaf signature 0
      let n := (shape leaf).1
      unaryFunction signature "m"
        [.declare "d" (.leaf .float) (some (determinantValue n)),
         .return (.native leaf.name (inverseElements n))]
  | pi => .constant .float nearestPi
  | custom _ _ body => body signature

end Emulation

end ShaderDialects
