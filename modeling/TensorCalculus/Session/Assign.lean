import TensorCalculus.Scalar.Derivative
import TensorCalculus.Session.Basic

/-! Partial derivatives. A coordinate has the obvious ones; the symbol of a component has
those of a further tensor, which is declared when it is first needed. -/
namespace TensorCalculus

namespace Session

def derivativeName (owner : Entry) : String :=
  match owner.origin with
  | .partialDerivative => owner.name ++ "D"
  | _ => owner.name ++ "_dD"

/-- The tensor of partial derivatives. Repeated derivatives commute. -/
def derivativeEntry (owner : Entry) (dimension : Nat) (naming : ComponentNaming) : Entry :=
  let name := derivativeName owner
  let rank := owner.rank
  let commuting : List SlotPair :=
    if owner.origin = .partialDerivative ∧ 0 < rank then [⟨rank - 1, rank, false⟩] else []
  let symmetry := Symmetry.ofPairs (owner.symmetry.slotPairs ++ commuting)
  { name, base := name, heights := owner.heights ++ [.lower], dimension, symmetry
    value := .symbolic name (rank + 1) dimension symmetry naming
    origin := .partialDerivative }

/-- The range of the derivatives of an entry; a scalar has that of the operator. -/
def derivativeRange (owner : Entry) (dimension : Nat) : Nat :=
  if owner.rank = 0 then dimension else owner.dimension

/-- The derivative of a component symbol of `owner` by the coordinate number `k`. -/
def ownedDerivative (owner : Entry) (index : IndexVector) (k dimension : Nat) (span : Span) :
    SessionM Expr := do
  let n := derivativeRange owner dimension
  if n ≤ k then throw { cause := .dimensions owner.name n dimension, span }
  let name := derivativeName owner
  let known := ((← get).table.get? name).any (·.dimension == n)
  if !known then
    if (Layout.componentCount? (owner.rank + 1) n).isNone then
      throw { cause := .indexing (.largeDerivative name), span }
    modify fun s => s.insert (derivativeEntry owner n s.config.naming)
  let some e := (← get).table.get? name | return .zero
  return e.value.get (index ++ [k])

/-- The derivative of a symbol by the coordinate number `k`. A symbol that is not yet known
is registered as a scalar. -/
def symbolDerivative (k dimension : Nat) (span : Span) (name : String) : SessionM Expr := do
  match (← get).coordinates.idxOf? name with
  | some i => return if i = k then .one else .zero
  | none =>
    if name == "pi" then return .zero
    if ((← get).table.owner? name).isNone then modify (·.registerScalar name)
    match (← get).table.owner? name with
    | none => return .zero
    | some (owner, index) =>
      if owner.symmetry = .const then return .zero
      ownedDerivative owner index k dimension span

/-- The derivative of an expression by the coordinate number `k`. -/
def differentiate (e : Expr) (k dimension : Nat) (span : Span) : SessionM Expr :=
  e.derivativeM (symbolDerivative k dimension span)

/-! Metrics and their connections. -/

def metricHeights? (name : String) : Option (String × Height) :=
  match name.toList.reverse with
  | 'U' :: 'U' :: c :: rest => some (String.ofList (c :: rest).reverse, .upper)
  | 'D' :: 'D' :: c :: rest => some (String.ofList (c :: rest).reverse, .lower)
  | _ => none

def metricEntry (base : String) (height : Height) (dimension : Nat) (value : Tensor)
    (origin : Origin) : Entry where
  name := base ++ String.ofList [height.letter, height.letter]
  base := base
  heights := [height, height]
  dimension := dimension
  symmetry := .metric
  value := value
  origin := origin

def determinantEntry (base : String) (dimension : Nat) (value : Expr) : Entry where
  name := base ++ "det"
  base := base ++ "det"
  heights := []
  dimension := dimension
  symmetry := .none
  value := .scalar value
  origin := .computed

/-- Declare a metric by one of its two forms. The other form and the determinant follow
from it. With `keep`, a known value of the right shape is taken over. -/
def declareMetric (name : String) (dimension : Nat) (keep : Bool) (span : Span) :
    SessionM Unit := do
  let some (base, height) := metricHeights? name
    | throw { cause := .directive (.metricHeights name), span }
  let s ← get
  let kept := (s.table.get? name).filter fun e => keep && e.rank == 2 && e.dimension == dimension
  let value := match kept with
    | some e => e.value
    | none => .symbolic name 2 dimension .metric s.config.naming
  let (inverse, det) := value.inverse
  let det := if height = .lower then det else det.power (.integer (-1))
  let s := s.insert (metricEntry base height dimension value .declared)
  let generation := s.table.lastId
  let s := s.insert (metricEntry base height.flip dimension inverse .computed)
  let s := s.insert (determinantEntry base dimension det)
  set (s.setMetric (Diacritic.split base).2 ⟨base, dimension, generation⟩)

def noConnection (mark : Diacritic) (span : Span) : Error where
  cause := .noConnection mark.metricName
  span := span

/-- One half of the inverse metric contracted with three derivatives of the metric, where
`derivatives` has the derivatives by each coordinate. -/
def christoffel (upper : Tensor) (derivatives : List Tensor) (n c a b : Nat) : Expr :=
  let d (k i j : Nat) : Expr := (derivatives[k]?.map (·.get [i, j])).getD .zero
  .sum ((List.range n).map fun k =>
    .product [.num (1 / 2), upper.get [c, k], .sum [d a k b, d b a k, (d k a b).neg]])

def connectionSymmetry : Symmetry :=
  .pairs [⟨1, 2, false⟩]

def connectionValue (upper : Tensor) (derivatives : List Tensor) (n : Nat) : Tensor :=
  let component (t : Tensor) : IndexVector → Tensor
    | [c, a, b] => t.set [c, a, b] (christoffel upper derivatives n c a b)
    | _ => t
  ((connectionSymmetry.distinctIndices 3 n).foldl component (.zeros 3 n)).fillAliases
    connectionSymmetry

def connectionEntry (mark : Diacritic) (metric : Metric) (value : Tensor) : Entry where
  name := mark.connectionName
  base := mark.connectionBase
  heights := [.upper, .lower, .lower]
  dimension := metric.dimension
  symmetry := connectionSymmetry
  value := value
  origin := .computed
  source := some metric.generation

def metricDerivative (lower : Tensor) (n k : Nat) (span : Span) : SessionM Tensor :=
  lower.entries.foldlM (fun t (index, g) => do
    return t.set index (← differentiate g k n span)) (.zeros 2 n)

/-- Make sure that the connection is that of the metric in force. -/
def ensureConnection (mark : Diacritic) (span : Span) : SessionM Unit := do
  let s ← get
  let some metric := s.metrics mark | throw (noConnection mark span)
  let known := (s.table.get? mark.connectionName).any (·.source == some metric.generation)
  if !known then
    let some lower := s.table.get? (metric.base ++ "DD") | throw (noConnection mark span)
    let some upper := s.table.get? (metric.base ++ "UU") | throw (noConnection mark span)
    let n := metric.dimension
    let derivatives ← (List.range n).mapM fun k => metricDerivative lower.value n k span
    modify (·.insert (connectionEntry mark metric (connectionValue upper.value derivatives n)))

/-! Components of tensors. A tensor that is not in the table may be known with
other heights; its indices are then raised and lowered with the metric. -/

def outOfRange (tensor : String) (dimension : Nat) (span : Span) : Error where
  cause := .indexing (.outOfRange tensor dimension)
  span := span

/-- One factor of the metric for each slot in `slots`, where the summation index is in
`summed`, and the component of the sibling that they are contracted with. -/
def raisingFactors (upper lower sibling : Tensor) (heights : List Height) (index : IndexVector) :
    List Nat → IndexVector → IndexVector → List Expr
  | slot :: slots, a :: summed, inner =>
    let metric := if heights.getD slot .upper = .upper then upper else lower
    metric.get [index.getD slot 0, a]
      :: raisingFactors upper lower sibling heights index slots summed (inner.set slot a)
  | _, _, inner => [sibling.get inner]

def mismatches (known asked : List Height) : List Nat :=
  (List.range asked.length).filter fun slot => known[slot]? != asked[slot]?

def raised? (s : Session) (t : TensorHead) (index : IndexVector) (span : Span) :
    Except Error (Option Expr) := do
  let some sibling := s.sibling? t | return none
  let some metric := s.metrics .none | return none
  let some upper := s.table.get? (metric.base ++ "UU") | return none
  let some lower := s.table.get? (metric.base ++ "DD") | return none
  let n := sibling.dimension
  if index.any (n ≤ ·) then throw (outOfRange t.name n span)
  let slots := mismatches sibling.heights t.heights
  return some (.sum ((Layout.indices slots.length n).map fun summed =>
    .product (raisingFactors upper.value lower.value sibling.value t.heights index slots summed
      index)))

def component (s : Session) (t : TensorHead) (index : IndexVector) (span : Span) :
    Except Error Expr := do
  let raised := do
    match ← s.raised? t index span with
    | some e => return e
    | none => throw (s.undeclared t.name span)
  match s.table.get? t.name with
  | some e =>
    if e.rank = index.length then
      match e.value.get? index with
      | some value => return value
      | none => throw (outOfRange e.name e.dimension span)
    else raised
  | none => raised

/-! Values of formulas in a session, and tensors defined by formulas. -/

/-- Formulas read in the session: new scalars and derivatives are declared on the way. -/
def reading : Reading SessionM where
  scalar name := modifyGet (·.scalar name)
  component t index span := do (← get).component t index span
  differentiate e k dimension span := do
    differentiate e k (dimension.getD (← get).defaultDimension) span

/-- The value of a formula in which all summations are explicit. -/
def evaluate (ρ : Assignment) (f : Formula) : SessionM Expr :=
  f.evaluate reading ρ

def resolve (f : Formula) : SessionM (Formula × List Occurrence) := do
  f.resolved (← get).dimensions

def checkFree (indices : List Index) (free : List Occurrence) (span : Span) : Except Error Unit :=
  if sameMembers (namedIndices indices) (free.map Occurrence.key) then return
  else
    let left := (indices.filter (·.name?.isSome)).map Index.describe
    throw { cause := .freeIndices left (free.map Occurrence.describe), span }

/-- The components of a tensor, one canonical component after the other; the others follow
by symmetry. -/
def componentsOf (target : Entry) (names : List String) (f : Formula) : SessionM Tensor := do
  let rank := target.rank
  let start : Tensor := if rank = 0 then .scalar .zero else .zeros rank target.dimension
  let value ← (target.symmetry.distinctIndices rank target.dimension).foldlM
    (fun (t : Tensor) index => do return t.set index (← evaluate (names.zip index) f)) start
  return value.fillAliases target.symmetry

def assignResolved (target : Entry) (indices : List Index) (f : Formula) (span : Span) :
    SessionM Unit := do
  let rank := target.rank
  if (Layout.componentCount? rank target.dimension).isNone then
    throw { cause := .indexing (.largeTensor target.name), span }
  let names := indices.filterMap Index.name?
  if names.length ≠ rank then throw { cause := .indexing .mixedTarget, span }
  let value ← componentsOf target names f
  modify (·.insert { target with value })

def assign (target : Entry) (indices : List Index) (f : Formula) (span : Span) :
    SessionM Unit := do
  let (f, free) ← resolve f
  checkFree indices free span
  assignResolved target indices f span

end Session

end TensorCalculus
