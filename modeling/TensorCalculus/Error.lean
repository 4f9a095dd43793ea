import TensorCalculus.Scalar.Expr
import TensorCalculus.Tensor.Layout
import TensorCalculus.Text.Span

/-! What can be wrong with a document. Each cause is a value; its wording is in one place. -/
namespace TensorCalculus

inductive Expected where
  | equals
  | target
  | endOfEquation
  | expression
  | closeParen
  | closeBracket
  | openBrace
  | closeBrace
  | leftDelimiter
  | right
  | rightDelimiter
  | exponent
  | name
  | nameAfter (command : String)
  | shortNumber
deriving DecidableEq, Repr

def Expected.text : Expected → String
  | equals => "`=`"
  | target => "a tensor or scalar name on the left-hand side"
  | endOfEquation => "the end of the equation"
  | expression => "an expression"
  | closeParen => "`)`"
  | closeBracket => "`]`"
  | openBrace => "`\x7b`"
  | closeBrace => "`\x7d`"
  | leftDelimiter => "a delimiter after `\\left`"
  | right => "`\\right`"
  | rightDelimiter => "a delimiter after `\\right`"
  | exponent => "an exponent"
  | name => "a name"
  | nameAfter command => "a name after `\\" ++ command ++ "`"
  | shortNumber => "a number with at most 18 significant digits"

inductive IndexFault where
  | strayBrace
  | derivativeTarget
  | indexedExpression
  | operatorWithoutIndex
  | operatorIndexList
  | emptyScript
  | openScript
  | notAnIndex (text : String)
  | unequalTerms (first other : List String)
  | freeInPower (name : String)
  | freeInArgument (name : String) (f : Func)
  | outOfRange (tensor : String) (dimension : Nat)
  | largeDerivative (tensor : String)
  | largeTensor (tensor : String)
  | mixedTarget
  | vanishing (tensor : String)
  | unexpanded
  | unbound (name : String)
deriving DecidableEq, Repr

def IndexFault.text : IndexFault → String
  | strayBrace => "this `\x7d` has no matching `\x7b`"
  | derivativeTarget => "derivatives are not allowed on the left-hand side"
  | indexedExpression => "only derivative indices may follow an expression"
  | operatorWithoutIndex => "a derivative operator needs an index"
  | operatorIndexList => "a derivative operator needs a list of indices"
  | emptyScript => "a script needs an index"
  | openScript => "the index group is not terminated"
  | notAnIndex text => "`" ++ text ++ "` is not an index"
  | unequalTerms first other =>
    "the terms of a sum have different free indices: [" ++ ", ".intercalate first ++ "] and ["
      ++ ", ".intercalate other ++ "]"
  | freeInPower name => "the free index `" ++ name ++ "` appears in a power"
  | freeInArgument name f =>
    "the free index `" ++ name ++ "` appears in the argument of " ++ f.name
  | outOfRange tensor dimension =>
    "component index out of range for `" ++ tensor ++ "` of dimension " ++ toString dimension
  | largeDerivative tensor =>
    "the derivative `" ++ tensor ++ "` would have more than " ++ toString Layout.maxComponents
      ++ " components"
  | largeTensor tensor =>
    "`" ++ tensor ++ "` would have more than " ++ toString Layout.maxComponents ++ " components"
  | mixedTarget => "the left-hand side mixes named and concrete indices"
  | vanishing tensor => "this component of `" ++ tensor ++ "` vanishes by symmetry"
  | unexpanded => "covariant derivative was not expanded"
  | unbound name => "the index `" ++ name ++ "` has no value"

inductive DirectiveFault where
  | positiveDimension
  | declaredDimension
  | missingName
  | invalidName (name : String)
  | unknownModifier (modifier : String)
  | secondModifier
  | indexedConstant (name : String)
  | permutationRank (name : String) (dimension : Nat)
  | twoIndices (name : String)
  | slotOutOfRange (slot : Nat) (name : String) (rank : Nat)
  | largeTensor (name : String)
  | metricHeights (name : String)
  | noCoordinates
  | invalidCoordinate (name : String)
deriving DecidableEq, Repr

def DirectiveFault.text : DirectiveFault → String
  | positiveDimension => "expected a positive dimension"
  | declaredDimension => "expected a dimension like `(3)` after the name"
  | missingName => "expected a name to declare"
  | invalidName name => "`" ++ name ++ "` is not a valid name"
  | unknownModifier modifier => "unknown modifier `" ++ modifier ++ "`"
  | secondModifier => "a declaration can have at most one symmetry modifier"
  | indexedConstant name => "the constant `" ++ name ++ "` must be a scalar"
  | permutationRank name dimension =>
    "the permutation symbol `" ++ name ++ "` must have rank equal to its dimension "
      ++ toString dimension
  | twoIndices name => "`" ++ name ++ "` must have exactly two indices"
  | slotOutOfRange slot name rank =>
    "the symmetry refers to index " ++ toString slot ++ " but `" ++ name ++ "` has rank "
      ++ toString rank
  | largeTensor name =>
    "`" ++ name ++ "` would have more than " ++ toString Layout.maxComponents ++ " components"
  | metricHeights name =>
    "the metric `" ++ name ++ "` must have two upper or two lower indices"
  | noCoordinates => "expected a list of coordinates"
  | invalidCoordinate name => "`" ++ name ++ "` is not a valid coordinate name"

inductive Cause where
  /-- A character or command outside the notation. -/
  | unrecognized (token : String) (suggestions : List String)
  | grammar (expected : Expected)
  | indexing (fault : IndexFault)
  | undeclared (name : String) (suggestions : List String)
  /-- An index twice at one height, or more than twice, in one term. -/
  | repetition (index : String) (occurrences : Nat)
  /-- Two ranges for one index. -/
  | dimensions (index : String) (first second : Nat)
  /-- A covariant derivative without the metric it needs. -/
  | noConnection (metric : String)
  /-- Different free indices on the two sides of an equation. -/
  | freeIndices (left right : List String)
  | directive (fault : DirectiveFault)
deriving DecidableEq, Repr

namespace Cause

def message : Cause → String
  | unrecognized token _ => "Unrecognized token `" ++ token ++ "`"
  | grammar expected => "Expected " ++ expected.text
  | indexing fault => "Malformed indexing: " ++ fault.text
  | undeclared name _ => "The symbol `" ++ name ++ "` has not been declared"
  | repetition index _ => "The index `" ++ index ++ "` is repeated illegally"
  | dimensions index _ _ => "The index `" ++ index ++ "` ranges over different dimensions"
  | noConnection metric =>
    "Covariant derivative requested but the metric `" ++ metric ++ "` is not declared"
  | freeIndices _ _ => "The two sides of the equation have different free indices"
  | directive fault => "Invalid directive: " ++ fault.text

/-- What is said of the place itself. -/
def label : Cause → String
  | unrecognized _ _ => "this token is not part of the notation"
  | grammar _ => "unexpected input here"
  | indexing _ => "the index group appears here"
  | undeclared _ _ => "the symbol is used here"
  | repetition _ occurrences =>
    "the index appears " ++ toString occurrences ++ " times in this term"
  | dimensions _ first second =>
    "the index ranges over " ++ toString first ++ " values here and " ++ toString second
      ++ " values elsewhere"
  | noConnection _ => "the covariant derivative appears here"
  | freeIndices left right =>
    "the left-hand side has free indices [" ++ ", ".intercalate left
      ++ "] and the right-hand side has [" ++ ", ".intercalate right ++ "]"
  | directive _ => "the directive appears here"

def notes : Cause → List String
  | unrecognized _ suggestions | undeclared _ suggestions =>
    suggestions.map fun s => "did you mean `" ++ s ++ "`?"
  | repetition _ _ =>
    ["a summed index must appear exactly twice in a term, once upper and once lower"]
  | noConnection metric => ["declare the metric using `% def metric " ++ metric ++ " (n)`"]
  | _ => []

end Cause

structure Error where
  cause : Cause
  span : Span
  /-- The text of the document at the span. -/
  fragment : Option String := none
deriving DecidableEq, Repr

namespace Error

/-- Attach the text of the document, unless there is one already. -/
def within (document : List Char) (e : Error) : Error :=
  { e with fragment := e.fragment.or ((Segment.slice? document e.span).map Segment.text) }

def message (e : Error) : String :=
  e.cause.message

def labels (e : Error) : List (String × Span) :=
  [(e.cause.label, e.span)]

def notes (e : Error) : List String :=
  e.cause.notes

def display (e : Error) : String :=
  match e.fragment with
  | some fragment => e.message ++ " (in `" ++ fragment ++ "`)"
  | none => e.message

end Error

/-- A name declared again, where that is worth a remark. -/
structure Warning where
  name : String
  span : Span
deriving DecidableEq, Repr

def Warning.message (w : Warning) : String :=
  "The declaration of `" ++ w.name ++ "` overrides an existing declaration"

end TensorCalculus
