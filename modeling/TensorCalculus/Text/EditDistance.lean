/-! Names close to a misspelt word. The distance of two words is the least number of
insertions, deletions and replacements of one character that turns one into the other. -/
namespace TensorCalculus

/-- The distances of a word that ends in `c` to the nonempty leading parts of another word.
`row` has those of the word without `c`, the empty part first, and `left` is the
distance to the part before. -/
def nextDistances (c : Char) : List Char → List Nat → Nat → List Nat
  | b :: bs, diagonal :: above :: row, left =>
    let d := if c == b then diagonal else 1 + min diagonal (min above left)
    d :: nextDistances c bs (above :: row) d
  | _, _, _ => []

/-- The distances to all leading parts of `b`, after one more character. -/
def distanceRow (b : List Char) (row : List Nat) (c : Char) : List Nat :=
  let first := row.headD 0 + 1
  first :: nextDistances c b row first

def editDistance (a b : List Char) : Nat :=
  (a.foldl (distanceRow b) (List.range (b.length + 1))).getLastD 0

/-- At most three other names of the dictionary, nearest first and then by name, within a
third of the word's length or a distance of 1. -/
def closeNames (dictionary : List String) (word : String) : List String :=
  let limit := max 1 (word.length / 3)
  let candidates := (dictionary.filter (· != word)).map fun name =>
    (editDistance word.toList name.toList, name)
  let near := candidates.filter (·.1 ≤ limit)
  let sorted := near.mergeSort fun a b =>
    ((compare a.1 b.1).then (compare a.2 b.2)).isLE
  (sorted.eraseReps.take 3).map (·.2)

end TensorCalculus
