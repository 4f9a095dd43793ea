import TensorCalculus.Scalar.Text
import TensorCalculus.Tensor.Layout

/-! Symmetry classes. A class relates the components of a tensor up to sign; of each set
of related components one is canonical and the others follow from it. -/
namespace TensorCalculus

/-- The sign that a component takes on its way to the canonical one; zero if it vanishes. -/
inductive Sign where
  | plus
  | minus
  | zero
deriving DecidableEq, Repr, Inhabited

namespace Sign

def flip : Sign → Sign
  | plus => minus
  | minus => plus
  | zero => zero

def apply : Sign → Expr → Expr
  | plus, e => e
  | minus, e => e.neg
  | zero, _ => .zero

end Sign

/-- Two slots whose exchange keeps a tensor, or changes its sign. -/
structure SlotPair where
  first : Nat
  second : Nat
  antisymmetric : Bool
deriving DecidableEq, Repr, Inhabited

inductive Symmetry where
  | none
  /-- One or several pairs at once. -/
  | pairs (slots : List SlotPair)
  /-- The totally antisymmetric symbol. -/
  | permutation
  | kronecker
  | metric
  /-- A scalar that does not depend on the coordinates. -/
  | const
deriving DecidableEq, Repr, Inhabited

def inversions : List Nat → Nat
  | [] => 0
  | x :: xs => xs.countP (· < x) + inversions xs

/-- The sign of the permutation that sorts the entries, zero if two are equal. -/
def parity (index : IndexVector) : Sign :=
  if index.Nodup then (if inversions index % 2 = 0 then .plus else .minus) else .zero

def orderings : Nat → Nat
  | 0 => 1
  | n + 1 => (n + 1) * orderings n

namespace SlotPair

/-- Put the two entries in order. The result is `none` for equal entries of an
antisymmetric pair; a pair that does not lie inside the index changes nothing. -/
def order (p : SlotPair) (sign : Sign) (index : IndexVector) : Option (Sign × IndexVector) :=
  match index[p.first]?, index[p.second]? with
  | some a, some b =>
    if p.antisymmetric && a == b then none
    else if b < a then
      some (if p.antisymmetric then sign.flip else sign, (index.set p.first b).set p.second a)
    else some (sign, index)
  | _, _ => some (sign, index)

/-- Order every pair in turn. A vanishing component stops with the sign zero. -/
def orderAll : List SlotPair → Sign → IndexVector → Sign × IndexVector
  | [], sign, index => (sign, index)
  | p :: ps, sign, index =>
    match p.order sign index with
    | some (sign, index) => orderAll ps sign index
    | none => (.zero, index)

/-- Order the pairs in rounds, until a round moves nothing or the rounds are used up. -/
def settle (ps : List SlotPair) : Nat → Sign → IndexVector → Sign × IndexVector
  | 0, sign, index => (sign, index)
  | rounds + 1, sign, index =>
    let result := orderAll ps sign index
    if result.1 == .zero || result.2 == index then result
    else settle ps rounds result.1 result.2

end SlotPair

namespace Symmetry

def ofPairs : List SlotPair → Symmetry
  | [] => none
  | ps => pairs ps

/-- A pair such as `sym01` or `anti21`. -/
def pairOfModifier? (part : List Char) : Option SlotPair :=
  let slots (antisymmetric : Bool) : List Char → Option SlotPair
    | [a, b] =>
      if a.isDigit && b.isDigit && a != b then
        let i := a.toNat - '0'.toNat
        let j := b.toNat - '0'.toNat
        some ⟨min i j, max i j, antisymmetric⟩
      else Option.none
    | _ => Option.none
  match part with
  | 's' :: 'y' :: 'm' :: digits => slots false digits
  | 'a' :: 'n' :: 't' :: 'i' :: digits => slots true digits
  | _ => Option.none

/-- The symmetry of a modifier like `nosym`, `metric`, `anti12` or `sym01_anti23`. -/
def ofModifier? (modifier : String) : Option Symmetry :=
  match modifier with
  | "nosym" => some none
  | "permutation" => some permutation
  | "kronecker" => some kronecker
  | "metric" => some metric
  | "const" => some const
  | _ => do
    let ps ← (modifier.toList.splitOn '_').mapM pairOfModifier?
    return pairs ps

def slotPairs : Symmetry → List SlotPair
  | pairs ps => ps
  | metric | kronecker => [⟨0, 1, false⟩]
  | none | permutation | const => []

def maxSlot? (s : Symmetry) : Option Nat :=
  (s.slotPairs.map (·.second)).max?

/-- The canonical index of a component, with the sign of the way there. Entries that still
move after as many rounds as they have arrangements have been in one of them twice, and
would move forever. -/
def canonicalize (s : Symmetry) (index : IndexVector) : Sign × IndexVector :=
  if s = permutation then (parity index, index.mergeSort)
  else SlotPair.settle s.slotPairs (orderings index.length) .plus index

def isCanonical (s : Symmetry) (index : IndexVector) : Bool :=
  let (sign, canonical) := s.canonicalize index
  sign != .zero && canonical == index

/-- The canonical indices of the components that do not vanish, in row-major order. -/
def distinctIndices (s : Symmetry) (rank dimension : Nat) : List IndexVector :=
  (Layout.indices rank dimension).filter s.isCanonical

end Symmetry

/-! Ordering slot pairs comes to rest. Each exchange of a pair whose first slot comes before
the second removes an inversion, and an index has fewer inversions than arrangements. -/

open List

theorem countP_set_add {p : Nat → Bool} {a b : Nat} (xs : List Nat) (q : Nat)
    (h : xs[q]? = some b) :
    (xs.set q a).countP p + (if p b then 1 else 0) = xs.countP p + (if p a then 1 else 0) := by
  induction xs generalizing q with
  | nil => simp at h
  | cons x xs ih =>
    cases q with
    | zero =>
      obtain rfl : x = b := by simpa using h
      simp only [set_cons_zero, countP_cons]
      omega
    | succ q =>
      have := ih q (by simpa using h)
      simp only [set_cons_succ, countP_cons]
      omega

theorem inversions_cons_set_lt {a b : Nat} (xs : List Nat) (q : Nat) (h : xs[q]? = some b)
    (hab : b < a) : inversions (b :: xs.set q a) < inversions (a :: xs) := by
  induction xs generalizing q with
  | nil => simp at h
  | cons x xs ih =>
    cases q with
    | zero =>
      obtain rfl : x = b := by simpa using h
      simp only [inversions, set_cons_zero, countP_cons, decide_eq_true_eq]
      rw [if_neg (Nat.lt_asymm hab), if_pos hab]
      omega
    | succ q =>
      have h : xs[q]? = some b := by simpa using h
      have rest := ih q h
      have count := countP_set_add (p := (· < x)) (a := a) xs q h
      simp only [inversions, set_cons_succ, countP_cons] at rest ⊢
      grind

/-- Exchanging two entries in the wrong order removes an inversion. -/
theorem inversions_exchange_lt {a b : Nat} (xs : List Nat) (p q : Nat)
    (hp : xs[p]? = some a) (hq : xs[q]? = some b) (hpq : p < q) (hab : b < a) :
    inversions ((xs.set p b).set q a) < inversions xs := by
  induction xs generalizing p q with
  | nil => simp at hp
  | cons x xs ih =>
    obtain ⟨q, rfl⟩ : ∃ k, q = k + 1 := ⟨q - 1, by omega⟩
    have hq : xs[q]? = some b := by simpa using hq
    cases p with
    | zero =>
      obtain rfl : x = a := by simpa using hp
      exact inversions_cons_set_lt xs q hq hab
    | succ p =>
      have hp : xs[p]? = some a := by simpa using hp
      have rest := ih p q hp hq (by omega)
      have hq' : (xs.set p b)[q]? = some b := by
        rw [getElem?_set_ne (by omega)]
        exact hq
      have one := countP_set_add (p := (· < x)) (a := b) xs p hp
      have two := countP_set_add (p := (· < x)) (a := a) (xs.set p b) q hq'
      simp only [inversions, set_cons_succ]
      omega

theorem orderings_pos (n : Nat) : 0 < orderings n := by
  induction n with
  | zero => exact Nat.one_pos
  | succ n ih => exact Nat.mul_pos n.succ_pos ih

theorem inversions_lt_orderings (xs : List Nat) : inversions xs < orderings xs.length := by
  induction xs with
  | nil => exact Nat.one_pos
  | cons x xs ih =>
    have count : xs.countP (· < x) ≤ xs.length := countP_le_length
    have wide : xs.length * 1 ≤ xs.length * orderings xs.length :=
      Nat.mul_le_mul_left _ (orderings_pos _)
    simp only [inversions, orderings, length_cons, Nat.succ_mul]
    omega

namespace SlotPair

variable {ps : List SlotPair}

theorem order_eq_or_inversions_lt {p : SlotPair} (hp : p.first < p.second) {sign sign' : Sign}
    {index index' : IndexVector} (h : p.order sign index = some (sign', index')) :
    (sign', index') = (sign, index) ∨ inversions index' < inversions index := by
  unfold order at h
  split at h
  · next a b ha hb =>
    split at h
    · cases h
    · split at h
      · cases h
        exact .inr (inversions_exchange_lt index _ _ ha hb hp (by assumption))
      · cases h
        exact .inl rfl
  · cases h
    exact .inl rfl

theorem orderAll_eq_or_inversions_lt (hps : ∀ p ∈ ps, p.first < p.second) (sign : Sign)
    (index : IndexVector) :
    (orderAll ps sign index).1 = .zero ∨ orderAll ps sign index = (sign, index) ∨
      inversions (orderAll ps sign index).2 < inversions index := by
  induction ps generalizing sign index with
  | nil => exact .inr (.inl rfl)
  | cons p ps ih =>
    have hps' : ∀ p ∈ ps, p.first < p.second := fun r hr => hps r (mem_cons_of_mem p hr)
    simp only [orderAll]
    split
    · next sign' index' h =>
      rcases order_eq_or_inversions_lt (hps p mem_cons_self) h with e | e
      · cases e
        exact ih hps' sign index
      · rcases ih hps' sign' index' with z | s | l
        · exact .inl z
        · rw [s]
          exact .inr (.inr e)
        · exact .inr (.inr (Nat.lt_trans l e))
    · exact .inl rfl

/-- More rounds than inversions are enough: the component vanishes, or another round would
change nothing. -/
theorem orderAll_settle (hps : ∀ p ∈ ps, p.first < p.second) (rounds : Nat) (sign : Sign)
    (index : IndexVector) (h : inversions index < rounds) :
    (settle ps rounds sign index).1 = .zero ∨
      orderAll ps (settle ps rounds sign index).1 (settle ps rounds sign index).2 =
        settle ps rounds sign index := by
  induction rounds generalizing sign index with
  | zero => exact absurd h (Nat.not_lt_zero _)
  | succ rounds ih =>
    simp only [settle]
    rcases orderAll_eq_or_inversions_lt hps sign index with z | s | l
    · simp [z]
    · simp [s]
    · split
      · next e =>
        rw [Bool.or_eq_true, beq_iff_eq, beq_iff_eq] at e
        rcases e with z | s
        · exact .inl z
        · rw [s] at l
          exact absurd l (Nat.lt_irrefl _)
      · exact ih _ _ (by omega)

end SlotPair

namespace Symmetry

/-- The canonical index of a component that does not vanish is in order at every pair. -/
theorem orderAll_canonicalize {s : Symmetry} (hs : s ≠ permutation)
    (hps : ∀ p ∈ s.slotPairs, p.first < p.second) (index : IndexVector) :
    (s.canonicalize index).1 = .zero ∨
      SlotPair.orderAll s.slotPairs (s.canonicalize index).1 (s.canonicalize index).2 =
        s.canonicalize index := by
  rw [canonicalize, if_neg hs]
  exact SlotPair.orderAll_settle hps _ _ _ (inversions_lt_orderings index)

end Symmetry

/-! Component arrays of tensors. -/

/-- The components of a tensor, in row-major order. -/
structure Tensor where
  rank : Nat
  dimension : Nat
  components : Array Expr
deriving DecidableEq, Inhabited

namespace Tensor

def ofFn (rank dimension : Nat) (f : IndexVector → Expr) : Tensor :=
  ⟨rank, dimension, ((Layout.indices rank dimension).map f).toArray⟩

def zeros (rank dimension : Nat) : Tensor :=
  ⟨rank, dimension, Array.replicate (Nat.pow dimension rank) .zero⟩

def scalar (e : Expr) : Tensor :=
  ⟨0, 0, #[e]⟩

/-- Fresh symbols for the canonical components, and what follows from them for the others. -/
def symbolic (name : String) (rank dimension : Nat) (symmetry : Symmetry)
    (naming : ComponentNaming) : Tensor :=
  if rank = 0 then scalar (.sym name)
  else
    ofFn rank dimension fun index =>
      let (sign, canonical) := symmetry.canonicalize index
      sign.apply (.sym (componentName name canonical dimension naming))

def get? (t : Tensor) (index : IndexVector) : Option Expr := do
  let offset ← Layout.offset? t.rank t.dimension index
  t.components[offset]?

/-- A component, zero outside the tensor. -/
def get (t : Tensor) (index : IndexVector) : Expr :=
  (t.get? index).getD .zero

/-- Replace a component. An index outside the tensor changes nothing. -/
def set (t : Tensor) (index : IndexVector) (e : Expr) : Tensor :=
  match Layout.offset? t.rank t.dimension index with
  | some offset => { t with components := t.components.setIfInBounds offset e }
  | none => t

def map (f : Expr → Expr) (t : Tensor) : Tensor :=
  { t with components := t.components.map f }

def entries (t : Tensor) : List (IndexVector × Expr) :=
  (Layout.indices t.rank t.dimension).zip t.components.toList

/-- Overwrite the component at `index` by what follows for it from the canonical one. -/
def fillAlias (symmetry : Symmetry) (t : Tensor) (index : IndexVector) : Tensor :=
  let (sign, canonical) := symmetry.canonicalize index
  if sign == .zero then t.set index .zero
  else if canonical == index then t
  else
    match t.get? canonical with
    | some e => t.set index (sign.apply e)
    | none => t

/-- Make all components agree with the canonical ones. -/
def fillAliases (symmetry : Symmetry) (t : Tensor) : Tensor :=
  (Layout.indices t.rank t.dimension).foldl (fillAlias symmetry) t

/-- Collapse the nested lists of components, of `rank` levels, that start at the `offset`th
list of that depth. -/
def foldFrom (t : Tensor) (leaf : Expr → β) (node : List β → β) : Nat → Nat → β
  | 0, offset => leaf (t.components[offset]?.getD .zero)
  | rank + 1, offset =>
    node ((List.range t.dimension).map fun i =>
      t.foldFrom leaf node rank (offset * t.dimension + i))

def fold (t : Tensor) (leaf : Expr → β) (node : List β → β) : β :=
  t.foldFrom leaf node t.rank 0

/-- Nested brackets, as in `[[a, b], [b, c]]`. -/
def text (t : Tensor) : String :=
  t.fold Expr.text fun rows => "[" ++ ", ".intercalate rows ++ "]"

end Tensor

/-! Permutations, the Levi-Civita symbol, the Kronecker delta, and determinant and inverse
of a square matrix. -/

/-- The lists of `n` different members of `xs`, ordered by the places of the members. -/
def arrangements : Nat → List Nat → List (List Nat)
  | 0, _ => [[]]
  | n + 1, xs => xs.flatMap fun x => (arrangements n (xs.erase x)).map (x :: ·)

def permutations (n : Nat) : List (List Nat) :=
  arrangements n (List.range n)

namespace Tensor

def leviCivita (dimension : Nat) : Tensor :=
  (permutations dimension).foldl (fun t p => t.set p ((parity p).apply .one))
    (zeros dimension dimension)

def kronecker (dimension : Nat) : Tensor :=
  (List.range dimension).foldl (fun t i => t.set [i, i] .one) (zeros 2 dimension)

def determinant (matrix : Tensor) : Expr :=
  .sum ((permutations matrix.dimension).map fun p =>
    (parity p).apply (.product (p.zipIdx.map fun (column, row) => matrix.get [row, column])))

def minor (matrix : Tensor) (row column : Nat) : Tensor :=
  let n := matrix.dimension
  ofFn 2 (n - 1) fun
    | [r, c] =>
      matrix.get [if r < row then r else r + 1, if c < column then c else c + 1]
    | _ => .zero

def cofactor (matrix : Tensor) (row column : Nat) : Expr :=
  let unsigned := if matrix.dimension = 1 then .one else (matrix.minor row column).determinant
  if (row + column) % 2 = 0 then unsigned else unsigned.neg

/-- The adjugate over the determinant, and the determinant. -/
def inverse (matrix : Tensor) : Tensor × Expr :=
  let det := matrix.determinant
  let inverseDet := det.power (.integer (-1))
  let inverted := ofFn 2 matrix.dimension fun
    | [i, j] => .product [matrix.cofactor j i, inverseDet]
    | _ => .zero
  (inverted, det)

end Tensor

end TensorCalculus
