import TensorCalculus.Formula.Basic
import TensorCalculus.Scalar.Product

/-! The summation convention. In each term an index that occurs once is free, and one that
occurs twice, once above and once below, is summed over: it gets a new name and the smallest
term around both occurrences becomes a contraction. Any other repetition is an error. -/
namespace TensorCalculus

structure Occurrence where
  name : String
  height : Height
  /-- The range of the index, where a tensor or the coordinates fix it. -/
  dimension : Option Nat
  span : Span
deriving DecidableEq, Repr, Inhabited

namespace Occurrence

def index (o : Occurrence) : Index :=
  .named o.name o.height

def describe (o : Occurrence) : String :=
  o.index.describe

/-- The index without its place and range. -/
def key (o : Occurrence) : String × Height :=
  (o.name, o.height)

end Occurrence

def sameMembers [BEq α] (as bs : List α) : Bool :=
  as.all bs.contains && bs.all as.contains

/-- What is known of the ranges of indices. -/
structure Dimensions where
  ofTensor : TensorHead → Option Nat
  ofCoordinates : Option Nat
  default : Nat

namespace Formula

mutual

def firstDimension? (dims : Dimensions) : Formula → Option Nat
  | num _ | sym _ => none
  | tensor t => dims.ofTensor t.head
  | derivative _ _ operand _ _ => operand.firstDimension? dims
  | sum ts => firstDimensionIn? dims ts
  | product fs => firstDimensionIn? dims fs
  | power b e => (b.firstDimension? dims).or (e.firstDimension? dims)
  | fn _ a => a.firstDimension? dims
  | contraction _ _ body => body.firstDimension? dims

def firstDimensionIn? (dims : Dimensions) : List Formula → Option Nat
  | [] => none
  | f :: fs => (f.firstDimension? dims).or (firstDimensionIn? dims fs)

end

end Formula

inductive IndexRole where
  | free (occurrence : Occurrence)
  | bound (name : String) (dimension : Option Nat)

namespace IndexRole

/-- The role of a name, by its first occurrence in a term and the other ones. -/
def ofOccurrences (a : Occurrence) : List Occurrence → Except Error IndexRole
  | [] => return free a
  | b :: rest =>
    let last := rest.getLastD b
    if rest.isEmpty && a.height != b.height then
      match a.dimension, b.dimension with
      | some m, some n =>
        if m = n then return bound a.name (some m)
        else throw { cause := .dimensions a.name m n, span := b.span }
      | m, n => return bound a.name (m.or n)
    else throw { cause := .repetition a.name (rest.length + 2), span := last.span }

def ofTerm : List Occurrence → Except Error (List IndexRole)
  | [] => return []
  | o :: rest => do
    let role ← ofOccurrences o (rest.filter (·.name == o.name))
    let roles ← ofTerm (rest.filter (·.name != o.name))
    return role :: roles
termination_by occurrences => occurrences.length
decreasing_by simpa using Nat.lt_succ_of_le (List.length_filter_le ..)

def free? : IndexRole → Option Occurrence
  | free o => some o
  | bound _ _ => none

def bound? : IndexRole → Option (String × Option Nat)
  | free _ => none
  | bound name dimension => some (name, dimension)

end IndexRole

namespace Formula

/-- Computations that draw new index names, numbered from zero. -/
abbrev Summation := StateT Nat (Except Error)

/-- The names of summation indices. No formula that is written has them. -/
def summationName (n : Nat) : String :=
  "_" ++ toString n

def sumOver (dims : Dimensions) (f : Formula) (name : String) (dimension : Option Nat) :
    Summation Formula := do
  let n ← get
  set (n + 1)
  let fresh := summationName n
  return contraction fresh (dimension.getD dims.default) (f.rename name fresh)

/-- Sum over the bound indices of one term; the free ones are left. -/
def contract (dims : Dimensions) (f : Formula) (occurrences : List Occurrence) :
    Summation (Formula × List Occurrence) := do
  let roles ← IndexRole.ofTerm occurrences
  let f ← (roles.filterMap IndexRole.bound?).foldlM
    (fun f (name, dimension) => sumOver dims f name dimension) f
  return (f, roles.filterMap IndexRole.free?)

def tensorOccurrences (dims : Dimensions) (t : TensorRef) : List Occurrence :=
  (namedIndices t.indices).map fun (name, height) => ⟨name, height, dims.ofTensor t.head, t.span⟩

def unequalTerms (first other : List Occurrence) : Error where
  cause := .indexing (.unequalTerms (first.map Occurrence.describe) (other.map Occurrence.describe))
  span := ((other.head?.or first.head?).map (·.span)).getD .none

mutual

def resolve (dims : Dimensions) : Formula → Summation (Formula × List Occurrence)
  | num q => return (num q, [])
  | sym s => return (sym s, [])
  | tensor t => contract dims (tensor t) (tensorOccurrences dims t)
  | derivative kind i operand _ span => do
    let (operand, free) ← operand.resolve dims
    let known := dims.ofCoordinates.or (operand.firstDimension? dims)
    let f := derivative kind i operand (some (known.getD dims.default)) span
    let own := (namedIndices [i]).map fun (name, height) => ⟨name, height, known, span⟩
    contract dims f (free ++ own)
  | product fs => do
    let (fs, free) ← resolveFactors dims fs
    contract dims (product fs) free
  | sum ts => do
    let (ts, free) ← resolveTerms dims none ts
    return (sum ts, free)
  | power b e => do
    let (b, inBase) ← b.resolve dims
    let (e, inExponent) ← e.resolve dims
    match inBase ++ inExponent with
    | o :: _ => throw { cause := .indexing (.freeInPower o.name), span := o.span }
    | [] => return (power b e, [])
  | fn f a => do
    let (a, free) ← a.resolve dims
    match free with
    | o :: _ => throw { cause := .indexing (.freeInArgument o.name f), span := o.span }
    | [] => return (fn f a, [])
  | contraction index dimension body => do
    let (body, free) ← body.resolve dims
    return (contraction index dimension body, free.filter (·.name != index))

def resolveFactors (dims : Dimensions) : List Formula → Summation (List Formula × List Occurrence)
  | [] => return ([], [])
  | f :: fs => do
    let (f, free) ← f.resolve dims
    let (fs, more) ← resolveFactors dims fs
    return (f :: fs, free ++ more)

/-- The terms of a sum, with the free indices of the first; all have to have the same. -/
def resolveTerms (dims : Dimensions) (first : Option (List Occurrence)) :
    List Formula → Summation (List Formula × List Occurrence)
  | [] => return ([], first.getD [])
  | t :: ts => do
    let (t, free) ← t.resolve dims
    let common := first.getD free
    if sameMembers (common.map Occurrence.key) (free.map Occurrence.key) then
      let (ts, free) ← resolveTerms dims (some common) ts
      return (t :: ts, free)
    else throw (unequalTerms common free)

end

/-- Make the summations of a formula explicit. The result also has its free indices, in the
order of their first occurrences. -/
def resolved (dims : Dimensions) (f : Formula) : Except Error (Formula × List Occurrence) :=
  (f.resolve dims).run' 0

end Formula

/-! Values of formulas in which all summations are explicit, over any reading of scalars,
components and derivatives. -/

/-- The values of index variables; the first one given for a name counts. -/
abbrev Assignment := List (String × Nat)

namespace Assignment

def indexValue (ρ : Assignment) (span : Span) (i : Index) : Except Error Nat :=
  match i.value with
  | .fixed n => return n
  | .named name =>
    match ρ.lookup name with
    | some n => return n
    | none => throw { cause := .indexing (.unbound name), span }

def indexValues (ρ : Assignment) (span : Span) (indices : List Index) : Except Error IndexVector :=
  indices.mapM (ρ.indexValue span)

end Assignment

/-- What scalars, components and partial derivatives stand for. -/
structure Reading (m : Type → Type) where
  scalar : String → m Expr
  component : TensorHead → IndexVector → Span → m Expr
  /-- By the coordinate of a number, with the range of the index if it is known. -/
  differentiate : Expr → Nat → Option Nat → Span → m Expr

variable {m : Type → Type} [Monad m] [MonadLiftT (Except Error) m]

namespace Reading

def componentAt (r : Reading m) (ρ : Assignment) (t : TensorRef) : m Expr := do
  let index ← ρ.indexValues t.span t.indices
  r.component t.head index t.span

/-- The derivative of a value. Covariant derivatives have to be expanded before. -/
def derivativeAt (r : Reading m) (ρ : Assignment) (kind : DerivativeKind) (i : Index)
    (dimension : Option Nat) (span : Span) (value : m Expr) : m Expr := do
  if kind ≠ .partialDerivative then
    (throw { cause := .indexing .unexpanded, span } : Except Error Unit)
  let k ← ρ.indexValue span i
  r.differentiate (← value) k dimension span

end Reading

namespace Formula

mutual

/-- The value of a formula in which all summations are explicit. -/
@[specialize] def evaluate (r : Reading m) (ρ : Assignment) : Formula → m Expr
  | num q => return .num q
  | sym name => r.scalar name
  | tensor t => r.componentAt ρ t
  | derivative kind i operand dimension span =>
    r.derivativeAt ρ kind i dimension span (operand.evaluate r ρ)
  | sum ts => do return .sum (← evaluateAll r ρ ts)
  | product fs => do return .product (← evaluateAll r ρ fs)
  | power b e => do
    let b ← b.evaluate r ρ
    let e ← e.evaluate r ρ
    return .power b e
  | fn f a => do return .apply f (← a.evaluate r ρ)
  | contraction index dimension body => do
    let es ← (List.range dimension).mapM fun n => body.evaluate r ((index, n) :: ρ)
    return .sum es

@[specialize] def evaluateAll (r : Reading m) (ρ : Assignment) : List Formula → m (List Expr)
  | [] => return []
  | f :: fs => do
    let e ← f.evaluate r ρ
    let es ← evaluateAll r ρ fs
    return e :: es

end

end Formula

end TensorCalculus
