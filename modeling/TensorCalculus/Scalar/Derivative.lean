import TensorCalculus.Scalar.Product

/-! Differentiation by the sum, product, power and chain rules. The derivative of a symbol
is given by a rule, which may have effects and may fail; it is consulted for the symbols
from left to right. -/
namespace TensorCalculus.Expr

def outerDerivative (f : Func) (a : Expr) : Expr :=
  let square := power a (integer 2)
  let minusHalf := num (-1 / 2)
  match f with
  | .sin => apply .cos a
  | .cos => (apply .sin a).neg
  | .tan => sum [one, power (apply .tan a) (integer 2)]
  | .sinh => apply .cosh a
  | .cosh => apply .sinh a
  | .tanh => sum [one, (power (apply .tanh a) (integer 2)).neg]
  | .asin => power (sum [one, square.neg]) minusHalf
  | .acos => (power (sum [one, square.neg]) minusHalf).neg
  | .atan => power (sum [one, square]) (integer (-1))
  | .asinh => power (sum [square, one]) minusHalf
  | .acosh => power (sum [square, integer (-1)]) minusHalf
  | .atanh => power (sum [one, square.neg]) (integer (-1))
  | .exp => apply .exp a
  | .log => power a (integer (-1))

/-- The product with each factor in turn replaced by its derivative, where that is not 0. -/
def productRule (before : List Expr) : List Expr → List Expr → List Expr
  | f :: fs, d :: ds =>
    let rest := productRule (before ++ [f]) fs ds
    if d.isZero then rest else product (before ++ d :: fs) :: rest
  | _, _ => []

def powerRule (base exponent dBase dExponent : Expr) : Expr :=
  if dExponent.isZero then
    product [exponent, power base (sum [exponent, integer (-1)]), dBase]
  else
    product [pow base exponent,
      sum [product [dExponent, apply .log base],
        product [exponent, dBase, power base (integer (-1))]]]

mutual

def derivativeM [Monad m] (rule : String → m Expr) : Expr → m Expr
  | num _ => pure zero
  | sym s => rule s
  | fn f a => do
    let d ← a.derivativeM rule
    return if d.isZero then zero else product [outerDerivative f a, d]
  | pow b e => do
    let db ← b.derivativeM rule
    let de ← e.derivativeM rule
    return powerRule b e db de
  | mul fs => do
    let ds ← derivativesM rule fs
    return sum (productRule [] fs ds)
  | add ts => do
    let ds ← derivativesM rule ts
    return sum ds

def derivativesM [Monad m] (rule : String → m Expr) : List Expr → m (List Expr)
  | [] => pure []
  | e :: es => do
    let d ← e.derivativeM rule
    let ds ← derivativesM rule es
    return d :: ds

end

def derivative (rule : String → Expr) (e : Expr) : Expr :=
  Id.run (e.derivativeM fun s => pure (rule s))

end TensorCalculus.Expr
