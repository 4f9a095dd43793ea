import TensorCalculus.Formula.Basic

/-! Covariant derivatives as formulas. A covariant derivative is the partial derivative and
one term with the connection for each free index. -/
namespace TensorCalculus

/-- The names `a`, …, `z`, `a1`, …, `z1`, `a2`, … -/
def dummyName (n : Nat) : String :=
  let letter := (Char.ofNat ('a'.toNat + n % 26)).toString
  if n < 26 then letter else letter ++ toString (n / 26)

/-- The first of these names that is not taken. Among one more than the number of taken
names there is one. -/
def freshName (taken : List String) : String :=
  (((List.range (taken.length + 1)).map dummyName).find? (!taken.contains ·)).getD ""

def singles (indices : List (String × Height)) : List (String × Height) :=
  indices.filter fun (name, _) => indices.countP (·.1 == name) == 1

namespace Formula

mutual

/-- The free indices in the order of their first occurrences. An index that is repeated in
a term is not free, whether or not the repetition is allowed. -/
def freeNames : Formula → List (String × Height)
  | num _ | sym _ | power .. | fn .. => []
  | tensor t => singles (namedIndices t.indices)
  | derivative _ i operand _ _ => singles (operand.freeNames ++ namedIndices [i])
  | product fs => singles (freeNameLists fs)
  | sum [] => []
  | sum (t :: _) => t.freeNames
  | contraction index _ body => body.freeNames.filter (·.1 != index)

def freeNameLists : List Formula → List (String × Height)
  | [] => []
  | f :: fs => f.freeNames ++ freeNameLists fs

end

def connection (mark : Diacritic) (indices : List Index) : Formula :=
  tensor (.ofBase mark.connectionBase indices .none)

/-- The term with the connection for one free index, where `f` has the dummy in its place. -/
def connectionTerm (mark : Diacritic) (name : String) (height : Height) (dummy : String)
    (index : Index) (f : Formula) : Formula :=
  match height with
  | .upper => product [connection mark [.upper name, .lower dummy, index], f]
  | .lower => product [integer (-1), connection mark [.upper dummy, .lower name, index], f]

/-- The covariant derivative of `f`, with the dummy that is used in it. -/
def covariantStep (mark : Diacritic) (index : Index) (taken : List String) (f : Formula) :
    Formula × String :=
  let index := { index with height := .lower }
  let dummy := freshName (taken ++ f.indexNames ++ index.name?.toList)
  let corrections := f.freeNames.map fun (name, height) =>
    connectionTerm mark name height dummy index (f.rename name dummy)
  (ofTerms (derivative .partialDerivative index f none .none :: corrections), dummy)

/-- Repeated covariant derivatives of a tensor, the outermost first. Only the indices of
the tensor are corrected in each step; the terms with the connection repeat the inner
derivatives for the renamed tensor. -/
def covariantChain (mark : Diacritic) (taken : List String) : List Index → TensorRef → Formula
  | [], t => tensor t
  | outer :: inner, t =>
    let index := { outer with height := .lower }
    let dummy := freshName (taken ++ t.indices.filterMap Index.name?)
    let corrections := (singles (namedIndices t.indices)).map fun (name, height) =>
      connectionTerm mark name height dummy index
        (covariantChain mark taken inner (t.rename name dummy))
    ofTerms (derivative .partialDerivative index (covariantChain mark taken inner t) none .none
      :: corrections)

/-- The covariant derivatives of a tensor by some indices, the outermost first. -/
def covariantDerivative (mark : Diacritic) (indices : List Index) (t : TensorRef) : Formula :=
  covariantChain mark ((t.indices ++ indices).filterMap Index.name?) indices t

end Formula

end TensorCalculus
