import TensorCalculus.Latex.Token

/-! Indices and the marks that go with names. -/
namespace TensorCalculus

inductive Height where
  /-- Contravariant, written as a superscript. -/
  | upper
  /-- Covariant, written as a subscript. -/
  | lower
deriving DecidableEq, Repr, Inhabited

namespace Height

def letter : Height → Char
  | upper => 'U'
  | lower => 'D'

def ofLetter? : Char → Option Height
  | 'U' => some upper
  | 'D' => some lower
  | _ => none

def flip : Height → Height
  | upper => lower
  | lower => upper

def mark : Height → String
  | upper => "^"
  | lower => "_"

theorem flip_flip (h : Height) : h.flip.flip = h := by
  cases h <;> rfl

end Height

inductive IndexValue where
  /-- A variable such as `\mu`. -/
  | named (name : String)
  /-- A definite component such as the `0` of `g^{0 0}`. -/
  | fixed (value : Nat)
deriving DecidableEq, Repr, Inhabited

structure Index where
  value : IndexValue
  height : Height
deriving DecidableEq, Repr, Inhabited

namespace Index

def named (name : String) (height : Height) : Index :=
  ⟨.named name, height⟩

def fixed (value : Nat) (height : Height) : Index :=
  ⟨.fixed value, height⟩

def upper (name : String) : Index :=
  named name .upper

def lower (name : String) : Index :=
  named name .lower

def name? (i : Index) : Option String :=
  match i.value with
  | .named name => some name
  | .fixed _ => none

def rename (source target : String) (i : Index) : Index :=
  if i.name? = some source then { i with value := .named target } else i

@[simp] theorem rename_height (source target : String) (i : Index) :
    (i.rename source target).height = i.height := by
  unfold rename
  split <;> rfl

/-- A plain rendering, as in `^mu`. -/
def describe (i : Index) : String :=
  i.height.mark ++
    match i.value with
    | .named name => name
    | .fixed n => toString n

end Index

def namedIndices (indices : List Index) : List (String × Height) :=
  indices.filterMap fun i => i.name?.map (·, i.height)

/-- A mark over a name. Each mark has a metric and a connection of its own. -/
inductive Diacritic where
  | none
  | hat
  | bar
  | tilde
deriving DecidableEq, Repr, Inhabited

namespace Diacritic

def suffix : Diacritic → String
  | none => ""
  | hat => "hat"
  | bar => "bar"
  | tilde => "tilde"

def ofCommand? : String → Option Diacritic
  | "hat" => some hat
  | "bar" => some bar
  | "tilde" => some tilde
  | _ => Option.none

/-- The names that can carry a mark: one letter, or a Greek letter. -/
def markable (stem : String) : Bool :=
  Command.isGreek stem ||
    match stem.toList with
    | [c] => c.isAlpha
    | _ => false

/-- What is left of a name without a mark at its end, if that can carry the mark. -/
def stem? (d : Diacritic) (name : String) : Option String :=
  let mark := d.suffix.toList
  let stem := String.ofList (name.toList.take (name.toList.length - mark.length))
  if mark.isSuffixOf name.toList && markable stem then some stem else Option.none

/-- Take the mark off a name, as in `ghat`. -/
def split (name : String) : String × Diacritic :=
  ([hat, bar, tilde].findSome? fun d => (d.stem? name).map (·, d)).getD (name, none)

def connectionBase (d : Diacritic) : String :=
  "Gamma" ++ d.suffix

def connectionName (d : Diacritic) : String :=
  d.connectionBase ++ "UDD"

def metricName (d : Diacritic) : String :=
  "g" ++ d.suffix ++ "DD"

end Diacritic

/-! Formulas with indices, as they are written. -/

/-- What a reference says about the tensor it means, apart from its indices' values. -/
structure TensorHead where
  /-- The name it is declared under, as `TUUD`. -/
  name : String
  /-- The symbol it is written with, as `T`. -/
  base : String
  heights : List Height
deriving DecidableEq, Repr, Inhabited

namespace TensorHead

def rank (t : TensorHead) : Nat :=
  t.heights.length

/-- Whether the name is the symbol with one byte more for each index. -/
def hasConventionalName (t : TensorHead) : Bool :=
  t.name.utf8ByteSize == t.base.utf8ByteSize + t.rank && t.base.toList.isPrefixOf t.name.toList

end TensorHead

/-- A tensor with its indices, as in `T^{\mu\nu}_k`. -/
structure TensorRef where
  name : String
  base : String
  indices : List Index
  span : Span
deriving DecidableEq, Repr, Inhabited

namespace TensorRef

/-- A tensor named by its symbol and one letter for each height. -/
def ofBase (base : String) (indices : List Index) (span : Span) : TensorRef :=
  ⟨base ++ String.ofList (indices.map (·.height.letter)), base, indices, span⟩

/-- A tensor with a name of another kind, which also serves as its symbol. -/
def ofName (name : String) (indices : List Index) (span : Span) : TensorRef :=
  ⟨name, name, indices, span⟩

def rank (t : TensorRef) : Nat :=
  t.indices.length

def head (t : TensorRef) : TensorHead :=
  ⟨t.name, t.base, t.indices.map (·.height)⟩

def rename (source target : String) (t : TensorRef) : TensorRef :=
  { t with indices := t.indices.map (·.rename source target) }

@[simp] theorem head_rename (source target : String) (t : TensorRef) :
    (t.rename source target).head = t.head := by
  simp [head, rename, Function.comp_def]

end TensorRef

inductive DerivativeKind where
  | partialDerivative
  | covariant (mark : Diacritic)
deriving DecidableEq, Repr, Inhabited

/-- The mark whose metric raises the index. -/
def DerivativeKind.mark : DerivativeKind → Diacritic
  | partialDerivative => .none
  | covariant mark => mark

inductive Formula where
  | num (value : Number)
  /-- A constant, a coordinate or another scalar. -/
  | sym (name : String)
  | tensor (ref : TensorRef)
  /-- The dimension is the range of the index, once it is known. -/
  | derivative (kind : DerivativeKind) (index : Index) (operand : Formula)
      (dimension : Option Nat) (span : Span)
  | sum (terms : List Formula)
  | product (factors : List Formula)
  | power (base exponent : Formula)
  | fn (f : Func) (arg : Formula)
  /-- The sum over all values of an index that is bound by it. -/
  | contraction (index : String) (dimension : Nat) (body : Formula)
deriving Inhabited

namespace Formula

def integer (n : Int) : Formula := num n

def isMinusOne : Formula → Bool
  | num q => q == -1
  | _ => false

def isNumber : Formula → Bool
  | num _ => true
  | _ => false

def negate : Formula → Formula
  | num q => num (-q)
  | f => product [integer (-1), f]

def ofTerms : List Formula → Formula
  | [t] => t
  | ts => sum ts

def ofFactors : List Formula → Formula
  | [f] => f
  | fs => product fs

mutual

/-- The names of the index variables, bound or not, in the order they are met. -/
def indexNames : Formula → List String
  | num _ | sym _ => []
  | tensor t => t.indices.filterMap Index.name?
  | derivative _ i operand _ _ => i.name?.toList ++ operand.indexNames
  | sum ts => indexNameLists ts
  | product fs => indexNameLists fs
  | power b e => b.indexNames ++ e.indexNames
  | fn _ a => a.indexNames
  | contraction index _ body => index :: body.indexNames

def indexNameLists : List Formula → List String
  | [] => []
  | f :: fs => f.indexNames ++ indexNameLists fs

end

mutual

/-- Rename the free occurrences of an index variable. -/
def rename (source target : String) : Formula → Formula
  | num q => num q
  | sym s => sym s
  | tensor t => tensor (t.rename source target)
  | derivative kind i operand dimension span =>
    derivative kind (i.rename source target) (operand.rename source target) dimension span
  | sum ts => sum (renameAll source target ts)
  | product fs => product (renameAll source target fs)
  | power b e => power (b.rename source target) (e.rename source target)
  | fn g a => fn g (a.rename source target)
  | contraction index dimension body =>
    contraction index dimension (if index = source then body else body.rename source target)

def renameAll (source target : String) : List Formula → List Formula
  | [] => []
  | f :: fs => f.rename source target :: renameAll source target fs

end

end Formula

structure Equation where
  target : TensorRef
  value : Formula
  span : Span
deriving Inhabited

end TensorCalculus
