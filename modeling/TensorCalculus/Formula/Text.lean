import TensorCalculus.Formula.Basic

/-! Formulas written in LaTeX. -/
namespace TensorCalculus

def braced (s : String) : String :=
  "\x7b" ++ s ++ "\x7d"

/-- A name as it is written: a Greek letter as its command, a mark as an accent. -/
def nameText (name : String) : String :=
  let plain (s : String) := if Command.isGreek s then "\\" ++ s else s
  if name == "pi" then "\\pi"
  else if Command.isGreek name then "\\" ++ name
  else
    match Diacritic.split name with
    | (_, .none) => name
    | (stem, d) => "\\" ++ d.suffix ++ braced (plain stem)

def Index.text (i : Index) : String :=
  match i.value with
  | .named name => nameText name
  | .fixed n => toString n

/-- One script, braced unless it has a single index. -/
def scriptText (height : Height) : List Index → String
  | [i] => height.mark ++ i.text
  | is => height.mark ++ braced (" ".intercalate (is.map Index.text))

def scripts : List Index → List (Height × List Index)
  | [] => []
  | i :: is =>
    match scripts is with
    | (height, run) :: rest =>
      if i.height = height then (height, i :: run) :: rest
      else (i.height, [i]) :: (height, run) :: rest
    | [] => [(i.height, [i])]

/-- From the third on, a script follows an empty group. -/
def scriptsText (runs : List (Height × List Index)) : String :=
  String.join (runs.zipIdx.map fun ((height, run), n) =>
    (if 2 ≤ n then braced "" else "") ++ scriptText height run)

def TensorRef.text (t : TensorRef) : String :=
  nameText t.base ++ scriptsText (scripts t.indices)

def DerivativeKind.text : DerivativeKind → String
  | partialDerivative => "\\partial"
  | covariant .none => "\\nabla"
  | covariant d => "\\" ++ d.suffix ++ braced "\\nabla"

namespace Formula

def numberText (q : Number) : String :=
  if q.isInteger then toString q.num
  else "\\frac" ++ braced (toString q.num) ++ braced (toString q.den)

def isNegativeTerm : Formula → Bool
  | num q => q < 0
  | product (num q :: _) => q < 0
  | _ => false

/-- The texts of factors, bracketed where needed. A tensor or derivative is bracketed once
a factor other than a number has come before. -/
def factorTexts (seen : Bool) : List (Formula × String) → List String
  | [] => []
  | (f, text) :: rest =>
    let bracketed :=
      match f with
      | sum _ => true
      | tensor _ | derivative .. => seen
      | _ => false
    (if bracketed then "(" ++ text ++ ")" else text) :: factorTexts (seen || !f.isNumber) rest

/-- A leading factor -1 is written as a sign. -/
def productText : List (Formula × String) → String
  | (f, text) :: g :: rest =>
    if f.isMinusOne then "-" ++ " ".intercalate (factorTexts false (g :: rest))
    else " ".intercalate (factorTexts false ((f, text) :: g :: rest))
  | fs => " ".intercalate (factorTexts false fs)

def factorsText : List (Formula × String) → String
  | [(_, text)] => text
  | fs => productText fs

/-- A product whose leading coefficient is negative, as written after a minus sign. -/
def negatedProductText : List (Formula × String) → String
  | (num q, _) :: rest =>
    if q == -1 then factorsText rest else factorsText ((num (-q), numberText (-q)) :: rest)
  | fs => factorsText fs

/-- Terms with their signs, each given with its text and its text after a minus sign. -/
def sumText : List (Formula × String × String) → String
  | [] => ""
  | (t, plain, negated) :: rest =>
    (if t.isNegativeTerm then "-" ++ negated else plain) ++
      String.join (rest.map fun (t, plain, negated) =>
        if t.isNegativeTerm then " - " ++ negated else " + " ++ plain)

def operandText (f : Formula) (text : String) : String :=
  match f with
  | tensor _ | derivative .. | sym _ => text
  | _ => "(" ++ text ++ ")"

def powerText (base : Formula) (baseText exponentText : String) : String :=
  let bare :=
    match base with
    | sym _ | tensor _ => true
    | num q => q.isInteger && 0 ≤ q
    | _ => false
  (if bare then baseText else "(" ++ baseText ++ ")") ++ "^" ++ braced exponentText

mutual

/-- The text of a formula, and its text as a term after a minus sign. -/
def texts : Formula → String × String
  | num q => (numberText q, numberText (-q))
  | sym s => let t := nameText s; (t, t)
  | tensor t => let t := t.text; (t, t)
  | derivative kind i operand _ _ =>
    let t := kind.text ++ scriptText i.height [i] ++ " " ++ operandText operand operand.texts.1
    (t, t)
  | sum ts =>
    let t := sumText (ts.zip (textLists ts))
    (t, t)
  | product fs =>
    let items := fs.zip ((textLists fs).map (·.1))
    (productText items, negatedProductText items)
  | power b e => let t := powerText b b.texts.1 e.texts.1; (t, t)
  | fn f a => let t := "\\" ++ Command.ofFunction f ++ "(" ++ a.texts.1 ++ ")"; (t, t)
  | contraction index dimension body =>
    let t := "\\sum_" ++ braced (index ++ "=0") ++ "^" ++ braced (toString (dimension - 1))
      ++ " (" ++ body.texts.1 ++ ")"
    (t, t)

def textLists : List Formula → List (String × String)
  | [] => []
  | f :: fs => f.texts :: textLists fs

end

def text (f : Formula) : String :=
  f.texts.1

end Formula

end TensorCalculus
