import TensorCalculus.Scalar.Product

/-! Infix text of expressions: `*` for products, `**` for powers, a denominator for the
factors with negative numeric exponents, and ` - ` before terms with negative coefficients. -/
namespace TensorCalculus.Expr

/-- Binding strength: sums 1, products and quotients 2, powers 3, atoms 4. -/
def precedence : Expr → Nat
  | add _ => 1
  | mul _ => 2
  | num q => if Number.isInteger q && 0 ≤ q then 4 else 2
  | pow _ (num q) => if q < 0 then 2 else 3
  | pow _ _ => 3
  | sym _ => 4
  | fn _ _ => 4

/-- The text of `e`, in brackets if `e` binds less than `level`. -/
def bracket (level : Nat) (e : Expr) (text : String) : String :=
  if e.precedence < level then "(" ++ text ++ ")" else text

def rootOrPower (base : Expr) (baseText : String) (exponent : Number) : String :=
  if exponent == 1 / 2 then "sqrt(" ++ baseText ++ ")"
  else
    let shown := Number.text exponent
    bracket 4 base baseText ++ "**" ++
      (if Number.isInteger exponent && 0 ≤ exponent then shown else "(" ++ shown ++ ")")

/-- A factor of a fraction: above the line, or below it together with whether it may stand
there without brackets. -/
inductive FractionPart where
  | above (text : String)
  | below (text : String) (alone : Bool)

namespace FractionPart

def above? : FractionPart → Option String
  | above text => some text
  | below _ _ => none

def below? : FractionPart → Option (String × Bool)
  | above _ => none
  | below text alone => some (text, alone)

end FractionPart

/-! The text is written with a given change of sign, since the one of machine numbers is not exact
at all of them. -/

variable (negate : Number → Number)

/-- The reciprocal of `base ** exponent` for a negative exponent, as a divisor. -/
def divisor (base : Expr) (baseText : String) (exponent : Number) : FractionPart :=
  if base.isZero then .below "0" true
  else if exponent == -1 then
    let p := base.precedence
    .below (bracket 2 base baseText) (3 ≤ p || p == 1)
  else .below (rootOrPower base baseText (negate exponent)) true

def productText (coefficient : Number) (parts : List FractionPart) : String :=
  let sign := if coefficient < 0 then "-" else ""
  let q : Number := if coefficient < 0 then negate coefficient else coefficient
  let above := (if q.num == 1 then [] else [toString q.num]) ++ parts.filterMap (·.above?)
  let below := (if q.den == 1 then [] else [(toString q.den, true)]) ++ parts.filterMap (·.below?)
  let upper := if above.isEmpty then "1" else "*".intercalate above
  let lower :=
    match below with
    | [] => ""
    | [(text, true)] => "/" ++ text
    | _ => "/(" ++ "*".intercalate (below.map (·.1)) ++ ")"
  sign ++ upper ++ lower

def sumText : List (Bool × String) → String
  | [] => ""
  | (negative, text) :: rest =>
    (if negative then "-" else "") ++ text ++
      String.join (rest.map fun (negative, text) => (if negative then " - " else " + ") ++ text)

/-- The text of an expression in the three places where it can stand. -/
structure Layout where
  text : String
  /-- As a factor of a product. -/
  factor : FractionPart
  /-- As a term of a sum: whether it is subtracted, and the text without that sign. -/
  term : Bool × String

/-- An expression that reads the same everywhere, up to brackets. -/
def plainLayout (e : Expr) (text : String) : Layout :=
  ⟨text, .above (bracket 2 e text), (false, text)⟩

mutual

def layout : Expr → Layout
  | num q =>
    let text := Number.text q
    { plainLayout (num q) text with
      term := if q < 0 then (true, Number.text (negate q)) else (false, text) }
  | sym s => plainLayout (sym s) s
  | fn f a =>
    plainLayout (fn f a)
      (if f == .exp && a.isOne then "E" else f.name ++ "(" ++ a.layout.text ++ ")")
  | pow b e =>
    let baseText := b.layout.text
    let exponentText := e.layout.text
    match e with
    | num q =>
      if q < 0 then
        let part := divisor negate b baseText q
        let text := productText negate 1 [part]
        ⟨text, part, (false, text)⟩
      else plainLayout (pow b e) (rootOrPower b baseText q)
    | sym _ | fn _ _ => plainLayout (pow b e) (bracket 4 b baseText ++ "**" ++ exponentText)
    | _ => plainLayout (pow b e) (bracket 4 b baseText ++ "**(" ++ exponentText ++ ")")
  | mul fs =>
    let parts := (layouts fs).map (·.factor)
    match fs with
    | num q :: _ =>
      let text := productText negate q parts.tail
      { plainLayout (mul fs) text with
        term := if q < 0 then (true, productText negate (negate q) parts.tail)
          else (false, text) }
    | _ => plainLayout (mul fs) (productText negate 1 parts)
  | add ts => plainLayout (add ts) (sumText ((layouts ts).map (·.term)))

def layouts : List Expr → List Layout
  | [] => []
  | e :: es => e.layout :: layouts es

end

def text (e : Expr) : String :=
  (e.layout Neg.neg).text

def negative? : Expr → Option Number
  | num q => if q < 0 then some q else none
  | _ => none

mutual

/-- The numbers that change sign when the expression is written: negative exponents, and
negative numbers in front of a product or as a term of a sum. -/
def negations : Expr → List Number
  | num _ => []
  | sym _ => []
  | fn _ a => a.negations
  | pow b e => e.negative?.toList ++ (b.negations ++ e.negations)
  | mul fs => (fs.head?.bind negative?).toList ++ negationLists fs
  | add ts => ts.filterMap negative? ++ negationLists ts

def negationLists : List Expr → List Number
  | [] => []
  | e :: es => e.negations ++ negationLists es

end

/-- A sign change is not checked, and its result need not fit. -/
def textOverflows (e : Expr) : Bool :=
  e.negations.any fun q => !Number.fits (-q.num)

end TensorCalculus.Expr
