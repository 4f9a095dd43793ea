import TensorCalculus.Scalar.Expr

/-! Sums. Nested sums are opened, equal terms are counted with their coefficients, and the
terms that remain are sorted with the number last. -/
namespace TensorCalculus

namespace Expr

/-- Consecutive equal keys share one list of values. -/
def runs : List (Expr × α) → List (Expr × List α)
  | [] => []
  | (k, v) :: rest =>
    match runs rest with
    | [] => [(k, [v])]
    | (k', vs) :: groups =>
      if k = k' then (k, v :: vs) :: groups else (k, [v]) :: (k', vs) :: groups

/-- The values of each key, keys in structural order, values in the order given. -/
def collect (pairs : List (Expr × α)) : List (Expr × List α) :=
  runs (pairs.mergeSort fun a b => (compare a.1 b.1).isLE)

mutual

def terms : Expr → List Expr
  | add ts => termLists ts
  | e => [e]

def termLists : List Expr → List Expr
  | [] => []
  | t :: ts => t.terms ++ termLists ts

end

def splitCoefficient : Expr → Expr × Number
  | num q => (one, q)
  | mul [num q, e] => (e, q)
  | mul (num q :: fs) => (mul fs, q)
  | e => (e, 1)

def scale (q : Number) (e : Expr) : Expr :=
  if q == 1 then e
  else
    match e with
    | mul fs => mul (num q :: fs)
    | e => mul [num q, e]

/-- One term for all coefficients of `rest`, and further ones for the coefficients whose
sum is out of range. -/
def likeTerms (rest : Expr) : List Number → List Expr
  | [] => []
  | q :: qs =>
    let (total, left) := Number.gather Number.add? q qs
    (if total == 0 then [] else [scale total rest]) ++ left.map (scale · rest)

/-- The number terms added up, if not zero, and those out of range. -/
def constantTerms (qs : List Number) : List Expr :=
  let (total, left) := Number.gather Number.add? 0 qs
  (if total == 0 then [] else [num total]) ++ left.map num

def addNode : List Expr → Expr
  | [] => zero
  | [t] => t
  | ts => add (ts.mergeSort fun a b => (termCompare a b).isLE)

/-- The terms of the sum of the operands, which are visited from the last to the first. -/
def sumTerms (operands : List Expr) : List Expr :=
  let visited := (termLists operands).reverse
  let groups := collect ((visited.filter (!·.isNumber)).map splitCoefficient)
  (groups.map fun g => likeTerms g.1 g.2).flatten ++ constantTerms (visited.filterMap number?)

def sum (operands : List Expr) : Expr :=
  addNode (sumTerms operands)

/-! Factors of products: nested products opened, bases with all their exponents, and what a
product looks like once the powers of its bases are known. -/

mutual

def factors : Expr → List Expr
  | mul fs => factorLists fs
  | e => [e]

def factorLists : List Expr → List Expr
  | [] => []
  | f :: fs => f.factors ++ factorLists fs

end

def splitPower : Expr → Expr × Expr
  | pow b e => (b, e)
  | e => (e, one)

def isProduct : Expr → Bool
  | mul _ => true
  | _ => false

def isInteger : Expr → Bool
  | num q => Number.isInteger q
  | _ => false

def isSum : Expr → Bool
  | add _ => true
  | _ => false

/-- The bases among the factors, numbers left out, each with all its exponents. -/
def baseGroups (operands : List Expr) : List (Expr × List Expr) :=
  collect (((factorLists operands).reverse.filter (!·.isNumber)).map splitPower)

def outerFactors : Expr → List Expr
  | mul fs => fs
  | e => [e]

/-- A product whose powers are known. -/
structure Joined where
  coefficient : Number
  factors : List Expr
  /-- Some power came out as a product, so that bases may meet again. -/
  reopened : Bool

/-- Multiply the numbers among the operands and their powers, and keep the other powers.
Numbers whose product is out of range stay factors. -/
def join (operands powers : List Expr) : Joined :=
  let given := Number.gather Number.mul? 1 ((factorLists operands).reverse.filterMap number?)
  let whole := Number.gather Number.mul? given.1 (powers.filterMap number?)
  let rest := powers.filter (!·.isNumber)
  { coefficient := whole.1
    factors := (rest.map outerFactors).flatten ++ (given.2 ++ whole.2).map num
    reopened := rest.any isProduct }

/-- The terms of the only factor, if it is a sum with a coefficient in front. -/
def Joined.soleSum? (j : Joined) : Option (List Expr) :=
  match j.factors with
  | [add ts] => if j.coefficient == 1 then none else some ts
  | _ => none

/-- A product node, except that no factor is the coefficient alone, and one factor without
a coefficient is itself. -/
def mulNode (coefficient : Number) : List Expr → Expr
  | [] => num coefficient
  | [f] => if coefficient == 1 then f else mul [num coefficient, f]
  | fs =>
    let sorted := fs.mergeSort fun a b => (factorCompare a b).isLE
    mul (if coefficient == 1 then sorted else num coefficient :: sorted)

/-- The value of a function, with the inverse function and a few constants recognised. -/
def apply (f : Func) (arg : Expr) : Expr :=
  match arg with
  | fn g inner => if g.cancels && g.inverse == f then inner else fn f arg
  | num q =>
    if q == 0 then
      match f.atZero? with
      | some n => integer n
      | none => fn f arg
    else if f == .log && q == 1 then zero
    else fn f arg
  | _ => fn f arg

/-- A power of a number, left as it is where the result is no number in range. -/
def numberPower (base : Number) : Expr → Expr
  | num e =>
    if base == 1 then one
    else
      match Number.pow? base e with
      | some q => num q
      | none => if base == 0 && 0 < e then zero else pow (num base) (num e)
  | e => if base == 1 then one else pow (num base) e

end Expr

end TensorCalculus
