import TensorCalculus.Document.List
import TensorCalculus.Formula.Covariant
import TensorCalculus.Formula.Parse
import TensorCalculus.Session.Assign

/-! Covariant derivatives inside equations. Those of a declared tensor are computed once, as
a tensor of their own such as `vU_cdD`; any other one is expanded in place. An upper
derivative index is raised with the metric. -/
namespace TensorCalculus

namespace Session

/-- A declared tensor with different named indices, whose derivatives can be kept. -/
def keepable? (s : Session) : Formula → Option TensorRef
  | .tensor t => do
    let e ← s.table.get? t.name
    let names := t.indices.filterMap Index.name?
    if e.rank = t.rank ∧ 0 < e.rank ∧ names.length = t.rank ∧ names.Nodup then some t else none
  | _ => none

/-- Distinct index variables of given heights that no document can name. -/
def genericIndices (heights : List Height) : List Index :=
  heights.zipIdx.map fun (height, n) => .named ("_s" ++ toString n) height

def covariantName (e : Entry) (mark : Diacritic) : String :=
  if e.origin = .covariantDerivative mark then e.name ++ "D"
  else e.name ++ "_cd" ++ mark.suffix ++ "D"

/-- An entry computed from another, before its value is. -/
def derivedEntry (e : Entry) (name : String) (heights : List Height) (origin : Origin) : Entry where
  name := name
  base := name
  heights := heights
  dimension := e.dimension
  symmetry := .ofPairs e.symmetry.slotPairs
  value := .scalar .zero
  origin := origin
  source := some e.id

/-- The name of the tensor of covariant derivatives, which is computed if it is not known
or older than the tensor or the connection. -/
def covariantTensor (t : TensorRef) (mark : Diacritic) (span : Span) : SessionM String := do
  let s ← get
  let some e := s.table.get? t.name | throw (s.undeclared t.name span)
  let name := covariantName e mark
  let connection := s.table.get? mark.connectionName
  let current := (s.table.get? name).any fun known =>
    known.source == some e.id && connection.all (·.id < known.id)
  if !current then
    let indices := genericIndices e.heights
    let operand : Formula := .tensor ⟨e.name, e.base, indices, .none⟩
    let (f, _) := operand.covariantStep mark (.lower "_d") ["_d"]
    let target := derivedEntry e name (e.heights ++ [.lower]) (.covariantDerivative mark)
    assign target (indices ++ [.lower "_d"]) f span
  return name

def raisedName (name : String) : String :=
  match name.toList.reverse with
  | 'D' :: rest => String.ofList ('U' :: rest).reverse
  | _ => name ++ "U"

/-- The name of a tensor of covariant derivatives with the last index raised. -/
def raisedTensor (lowerName metricBase : String) (span : Span) : SessionM String := do
  let s ← get
  let some e := s.table.get? lowerName | throw (s.undeclared lowerName span)
  let name := raisedName lowerName
  let current := (s.table.get? name).any (·.source == some e.id)
  if !current then
    let heights := e.heights.dropLast
    let indices := genericIndices heights
    let f : Formula := .product
      [.tensor (.ofBase metricBase [.upper "_d", .upper "_a"] .none),
       .tensor (.ofName lowerName (indices ++ [.lower "_a"]) .none)]
    let target := derivedEntry e name (heights ++ [.upper]) .computed
    assign target (indices ++ [.upper "_d"]) f span
  return name

/-- Computations that draw dummy indices; the state has the names that are taken. -/
abbrev ExpansionM := StateT (List String) SessionM

def lowerDerivative (kind : DerivativeKind) (i : Index) (span : Span) (operand : Formula) :
    ExpansionM Formula := do
  match kind with
  | .partialDerivative => return .derivative .partialDerivative i operand none span
  | .covariant mark =>
    ensureConnection mark span
    match keepable? (← getThe Session) operand with
    | some t =>
      let name ← covariantTensor t mark span
      return .tensor (.ofName name (t.indices ++ [i]) span)
    | none =>
      let (f, dummy) := operand.covariantStep mark i (← get)
      modify (dummy :: ·)
      return f

def contractedDerivative (kind : DerivativeKind) (i : Index) (span : Span) (metric : Metric)
    (operand : Formula) : ExpansionM Formula := do
  let dummy := freshName ((← get) ++ operand.indexNames ++ i.name?.toList)
  modify (dummy :: ·)
  let lowered ← lowerDerivative kind (.lower dummy) span operand
  return .product [.tensor (.ofBase metric.base [i, .upper dummy] span), lowered]

def upperDerivative (kind : DerivativeKind) (i : Index) (span : Span) (operand : Formula) :
    ExpansionM Formula := do
  let mark := kind.mark
  let some metric := (← getThe Session).metrics mark | throw (noConnection mark span)
  match kind with
  | .partialDerivative => contractedDerivative kind i span metric operand
  | .covariant mark =>
    ensureConnection mark span
    match keepable? (← getThe Session) operand with
    | some t =>
      let lower ← covariantTensor t mark span
      let name ← raisedTensor lower metric.base span
      return .tensor (.ofName name (t.indices ++ [i]) span)
    | none => contractedDerivative kind i span metric operand

mutual

/-- Remove all covariant derivatives and all derivatives by upper indices. -/
def expand : Formula → ExpansionM Formula
  | .num q => return .num q
  | .sym s => return .sym s
  | .tensor t => return .tensor t
  | .sum ts => do return .sum (← expandAll ts)
  | .product fs => do return .product (← expandAll fs)
  | .power b e => do
    let b ← expand b
    let e ← expand e
    return .power b e
  | .fn f a => do return .fn f (← expand a)
  | .contraction index dimension body => do return .contraction index dimension (← expand body)
  | .derivative kind i operand _ span => do
    let operand ← expand operand
    match i.height with
    | .lower => lowerDerivative kind i span operand
    | .upper => upperDerivative kind i span operand

def expandAll : List Formula → ExpansionM (List Formula)
  | [] => return []
  | f :: fs => do
    let f ← expand f
    let fs ← expandAll fs
    return f :: fs

end

/-- A formula without covariant derivatives and with explicit summations, and its free
indices. The names in `taken` are not used as dummies. -/
def expandAndResolve (taken : List String) (f : Formula) :
    SessionM (Formula × List Occurrence) := do
  let f ← (expand f).run' (taken ++ f.indexNames)
  resolve f

/-! Equations define tensors, or single components of them. -/

/-- Set one component, as in `g^{0 0} = -1`, and those related to it. -/
def defineComponent (target : TensorRef) (f : Formula) (span : Span) : SessionM Unit := do
  let s ← get
  let some e := s.table.get? target.name | throw (s.undeclared target.name target.span)
  let index := target.indices.filterMap fun i =>
    match i.value with
    | .fixed n => some n
    | .named _ => none
  if index.any (e.dimension ≤ ·) then throw (outOfRange e.name e.dimension target.span)
  let (f, free) ← expandAndResolve [] f
  checkFree target.indices free span
  let value ← evaluate [] f
  let (sign, canonical) := e.symmetry.canonicalize index
  if sign = .zero then
    if !value.isZero then throw { cause := .indexing (.vanishing e.name), span := target.span }
  else
    let tensor := (e.value.set canonical (sign.apply value)).fillAliases e.symmetry
    modify fun s => { s with table := s.table.setValue e.name tensor }

/-- The range of the target's indices: that of the tensor if it is known, or else the first
that the formula fixes. -/
def targetDimension (s : Session) (existing : Option Entry) (free : List Occurrence) : Nat :=
  let inferred := (free.findSome? (·.dimension)).getD s.defaultDimension
  match existing with
  | some e => if 0 < e.rank then e.dimension else inferred
  | none => inferred

def checkDimensions (dimension : Nat) (free : List Occurrence) : Except Error Unit :=
  free.forM fun o =>
    match o.dimension with
    | some n =>
      if n = dimension then return
      else throw { cause := .dimensions o.name dimension n, span := o.span }
    | none => return

def checkTarget (target : TensorRef) : Except Error Unit :=
  let names := target.indices.filterMap Index.name?
  names.forM fun name =>
    let occurrences := names.count name
    if 1 < occurrences then
      throw { cause := .repetition name occurrences, span := target.span }
    else return

/-- The entry that an equation defines, before its value is known. A known tensor of the same
rank gives it its symmetry. -/
def targetEntry (s : Session) (target : TensorRef) (free : List Occurrence) : Entry :=
  let existing := (s.table.get? target.name).filter (·.rank == target.rank)
  { name := target.name, base := target.base, heights := target.indices.map (·.height)
    dimension := s.targetDimension existing free
    symmetry := (existing.map (·.symmetry)).getD .none
    value := .scalar .zero, origin := .computed }

/-- Define all components of a tensor, or a scalar. -/
def defineTensor (target : TensorRef) (f : Formula) (span : Span) : SessionM Unit := do
  checkTarget target
  let (f, free) ← expandAndResolve (target.indices.filterMap Index.name?) f
  checkFree target.indices free span
  let entry := (← get).targetEntry target free
  checkDimensions entry.dimension free
  assignResolved entry target.indices f span

def define (e : Equation) : SessionM Unit := do
  let named := e.target.indices.countP (·.name?.isSome)
  if named = 0 ∧ 0 < e.target.rank then defineComponent e.target e.value e.span
  else if named ≠ e.target.rank then
    throw { cause := .indexing .mixedTarget, span := e.target.span }
  else defineTensor e.target e.value e.span

/-! Directives: declarations, evaluation, coordinates and the default dimension. -/

def directiveError (span : Span) (fault : DirectiveFault) : Error where
  cause := .directive fault
  span := span

def positive? (cs : List Char) : Option Nat :=
  (natural? cs).filter (0 < ·)

/-- One item of a declaration, as `sym01 hDD (4)`. -/
structure Declaration where
  name : Segment
  modifiers : List Segment
  dimension : Option Nat

/-- The dimension in brackets after a name; `s` begins after the bracket. -/
def Declaration.parseDimension (s : Segment) : Except Error Nat := do
  let s := s.trim
  let closed := match s.chars.reverse with
    | ')' :: inner | ']' :: inner => positive? (Segment.trim ⟨0, inner.reverse⟩).chars
    | _ => none
  match closed with
  | some n => return n
  | none => throw (directiveError s.span .declaredDimension)

def Declaration.parse (item : Segment) : Except Error Declaration := do
  let isOpen (c : Char) := c == '(' || c == '['
  let head := item.takeWhile (!isOpen ·)
  let rest := item.dropWhile (!isOpen ·)
  let dimension ←
    if rest.isEmpty then pure none else do pure (some (← parseDimension (rest.drop 1)))
  match head.words.reverse with
  | [] => throw (directiveError item.span .missingName)
  | name :: modifiers =>
    if !isName name.chars then throw (directiveError name.span (.invalidName name.text))
    return ⟨name, modifiers.reverse, dimension⟩

/-- The symmetry among some modifiers, of which there may be one. -/
def Declaration.symmetry (first : Option Symmetry) : List Segment → Except Error Symmetry
  | [] => return first.getD .none
  | m :: ms => do
    let some s := Symmetry.ofModifier? m.text
      | throw (directiveError m.span (.unknownModifier m.text))
    if first.isSome then throw (directiveError m.span .secondModifier)
    Declaration.symmetry (some s) ms

/-- What is wrong with a symmetry at a rank and dimension, if anything is. -/
def symmetryFault? (name : String) (rank dimension : Nat) (symmetry : Symmetry) :
    Option DirectiveFault :=
  let slots :=
    match symmetry.maxSlot? with
    | some slot => if rank ≤ slot then some (.slotOutOfRange slot name rank) else none
    | none => none
  match symmetry with
  | .const => if 0 < rank then some (.indexedConstant name) else none
  | .permutation => if rank ≠ dimension then some (.permutationRank name dimension) else none
  | .kronecker | .metric => if rank ≠ 2 then some (.twoIndices name) else slots
  | _ => slots

def declarationFault? (name : String) (rank dimension : Nat) (symmetry : Symmetry) :
    Option DirectiveFault :=
  (symmetryFault? name rank dimension symmetry).or
    (if (Layout.componentCount? rank dimension).isNone then some (.largeTensor name) else none)

/-- The value of a declared tensor: what its symmetry prescribes, the value it had, or
symbols of its own. -/
def declaredValue (name : String) (rank dimension : Nat) (symmetry : Symmetry)
    (naming : ComponentNaming) (kept : Option Tensor) : Tensor :=
  match symmetry, kept with
  | .permutation, _ => .leviCivita dimension
  | .kronecker, _ => .kronecker dimension
  | _, some value => value.fillAliases symmetry
  | _, none => .symbolic name rank dimension symmetry naming

/-- Declare a tensor or scalar. To declare it again keeps its value where that fits. -/
def declare (again : Bool) (item : Segment) : SessionM Unit := do
  let d ← Declaration.parse item
  let symmetry ← Declaration.symmetry none d.modifiers
  let s ← get
  let name := d.name.text
  let existing := s.table.get? name
  let inherited := (existing.filter fun _ => again).map (·.dimension)
  let dimension := (d.dimension.or inherited).getD s.defaultDimension
  let (base, heights) := splitHeights name
  let rank := heights.length
  if let some fault := declarationFault? name rank dimension symmetry then
    throw (directiveError d.name.span fault)
  if !again && existing.isSome then modify (·.warn ⟨name, d.name.span⟩)
  if symmetry = .metric then declareMetric name dimension again d.name.span
  else
    let fitting := existing.filter fun e =>
      again && e.rank == rank && (rank == 0 || e.dimension == dimension)
    let value := declaredValue name rank dimension symmetry s.config.naming
      (fitting.map (·.value))
    modify (·.insert { name, base, heights, dimension, symmetry, value, origin := .declared })

/-- The value of a component symbol, unless that is the symbol itself. -/
def currentValue? (s : Session) (symbol : String) : Option Expr := do
  let (owner, index) ← s.table.owner? symbol
  let value ← owner.value.get? index
  if value.symbol? = some symbol then none else some value

/-- Put the current values of all symbols in place, as often as that changes something but
not more than `n` times. -/
def substituteValues (s : Session) : Nat → Tensor → Tensor
  | 0, t => t
  | n + 1, t =>
    let next := t.map (·.substitute s.currentValue?)
    if next = t then t else s.substituteValues n next

def maxPasses : Nat := 8

def evaluateName (item : Segment) : SessionM Unit := do
  let s ← get
  let some e := s.table.get? item.text | throw (s.undeclared item.text item.span)
  let value := s.substituteValues maxPasses e.value
  modify fun s => { s with table := s.table.setValue item.text value }

def coordinateNames (s : Segment) : List (List Char) :=
  let inner := (s.trim.dropWhile (· == '[')).dropWhileEnd (· == ']')
  let parts := inner.chars.splitOn ','
  (parts.map fun part => (Segment.trim ⟨0, part⟩).chars.dropWhile (· == '\\')).filter (!·.isEmpty)

def declareCoordinates (s : Segment) : SessionM Unit := do
  let names := coordinateNames s
  if names.isEmpty then throw (directiveError s.span .noCoordinates)
  if let some bad := names.find? (!isName ·) then
    throw (directiveError s.span (.invalidCoordinate (String.ofList bad)))
  modify (·.setCoordinates (names.map String.ofList))

def declareDimension (s : Segment) : SessionM Unit := do
  let some n := positive? s.chars | throw (directiveError s.span .positiveDimension)
  modify ({ · with dimension := some n })

/-! Running documents and expressions in a session. -/

def defineText (document : List Char) (s : Segment) : SessionM Unit := do
  define (← Equation.parse document s (← get).table.isTensorBase)

/-- An equation without tokens says nothing. -/
def runEquation (document : List Char) (s : Segment) : SessionM Unit := do
  let tokens ← Token.scan s
  if !tokens.isEmpty then defineText document s

/-- The actions of a directive, one for each item of a list. One with an unknown keyword is a
comment. -/
def directiveActions (document : List Char) (s : Segment) : List (SessionM Unit) :=
  let s := s.trim
  let keyword := s.takeWhile Char.isAlpha
  let rest := (s.dropWhile Char.isAlpha).trim
  match keyword.text with
  | "def" => rest.items.map (declare false)
  | "redef" => rest.items.map (declare true)
  | "parse" => [defineText document rest]
  | "eval" => rest.items.map evaluateName
  | "coord" => [declareCoordinates rest]
  | "dim" => [declareDimension rest]
  | _ => []

def statementActions (document : List Char) : Statement → List (SessionM Unit)
  | .directive s => directiveActions document s
  | .equation s => [runEquation document s]

/-- What a document does, in order. -/
def documentActions (document : List Char) : List (SessionM Unit) :=
  (Statement.split document).flatMap (statementActions document)

/-- The value of an expression without free indices. -/
def valueOf (document : List Char) : SessionM Expr := do
  let whole : Segment := ⟨0, document⟩
  let f ← Formula.parse document whole (← get).table.isTensorBase
  let (f, free) ← expandAndResolve [] f
  if !free.isEmpty then
    throw { cause := .freeIndices [] (free.map Occurrence.describe), span := whole.span }
  evaluate [] f

/-- Run a document. The result is the list of known names, or an error with the text it
points to. -/
def parse (source : String) (s : Session) : Except Error (List String) × Session :=
  let document := source.toList
  match ((documentActions document).forM id).run s with
  | (.ok _, s) => (.ok s.table.order, s)
  | (.error e, s) => (.error (e.within document), s)

def parseExpr (source : String) (s : Session) : Except Error Expr × Session :=
  let document := source.toList
  match (valueOf document).run s with
  | (.ok e, s) => (.ok e, s)
  | (.error e, s) => (.error (e.within document), s)

end Session

inductive Value where
  | scalar (e : Expr)
  | tensor (t : Tensor)

namespace Value

def ofEntry (e : Entry) : Value :=
  match e.value.get? [] with
  | some value => if e.rank = 0 then scalar value else tensor e.value
  | none => tensor e.value

def text : Value → String
  | scalar e => e.text
  | tensor t => t.text

end Value

namespace Session

def value? (s : Session) (name : String) : Option Value :=
  (s.table.get? name).map Value.ofEntry

def values (s : Session) : List (String × Value) :=
  s.table.order.filterMap fun name => (s.value? name).map (name, ·)

end Session

def compile (config : Config) (source : String) : Except Error Session :=
  match (Session.new config).parse source with
  | (.ok _, s) => .ok s
  | (.error e, _) => .error e

end TensorCalculus
