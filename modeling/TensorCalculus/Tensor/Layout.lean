/-! The components of a tensor are addressed by index vectors and stored in row-major
order: the last index runs fastest. -/
namespace TensorCalculus

/-- The values of the indices of one component, one per slot. -/
abbrev IndexVector := List Nat

namespace Layout

def maxComponents : Nat := 1048576

/-- The number of components, unless it exceeds the largest one or the rank does not fit
32 bits. Beyond rank 20 only the dimensions 0 and 1 can stay below the limit. -/
def componentCount? (rank dimension : Nat) : Option Nat :=
  if 4294967296 ≤ rank then none
  else if dimension ≤ 1 then some (if rank = 0 then 1 else dimension)
  else if 20 < rank then none
  else
    let count := Nat.pow dimension rank
    if count ≤ maxComponents then some count else none

def indices : Nat → Nat → List IndexVector
  | 0, _ => [[]]
  | rank + 1, dimension =>
    (List.range dimension).flatMap fun i => (indices rank dimension).map (i :: ·)

/-- Position of an index vector among all of its rank, continuing from a leading part. -/
def offsetFrom (dimension : Nat) : Nat → IndexVector → Nat
  | acc, [] => acc
  | acc, i :: is => offsetFrom dimension (acc * dimension + i) is

def offset? (rank dimension : Nat) (index : IndexVector) : Option Nat :=
  if index.length == rank && index.all (· < dimension) then some (offsetFrom dimension 0 index)
  else none

end Layout

/-- How the symbol of a component is named after its tensor. -/
inductive ComponentNaming where
  /-- Digits follow each other, or are separated if an index can exceed 9. -/
  | auto
  /-- Digits are always separated. -/
  | separated
deriving DecidableEq, Repr, Inhabited

def componentName (tensor : String) (index : IndexVector) (dimension : Nat)
    (naming : ComponentNaming) : String :=
  let separator := if naming == .auto && dimension ≤ 10 then "" else "_"
  tensor ++ separator.intercalate (index.map toString)

end TensorCalculus
