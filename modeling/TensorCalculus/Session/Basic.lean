import TensorCalculus.Formula.Summation
import TensorCalculus.Table.Basic

/-! What a session has learned from the documents so far. -/
namespace TensorCalculus

structure Config where
  /-- The dimension where nothing else fixes one. -/
  defaultDimension : Nat := 3
  warnOnOverride : Bool := true
  naming : ComponentNaming := .auto
deriving DecidableEq, Repr, Inhabited

/-- The metric in force for one mark. -/
structure Metric where
  base : String
  dimension : Nat
  /-- The number of the entry that declared it. -/
  generation : Nat
deriving DecidableEq, Repr, Inhabited

structure Session where
  config : Config := {}
  table : Table := {}
  metrics : Diacritic → Option Metric := fun _ => none
  coordinates : List String := []
  /-- The default dimension of the documents, which goes before that of the configuration. -/
  dimension : Option Nat := none
  warnings : List Warning := []

/-- Computations in a session. What was learned before a failure is kept. -/
abbrev SessionM := ExceptT Error (StateM Session)

namespace Session

def new (config : Config) : Session := { config }

def defaultDimension (s : Session) : Nat :=
  s.dimension.getD s.config.defaultDimension

def insert (s : Session) (e : Entry) : Session :=
  { s with table := s.table.insert s.config.naming e }

def setMetric (s : Session) (mark : Diacritic) (metric : Metric) : Session :=
  { s with metrics := fun d => if d = mark then some metric else s.metrics d }

/-- Take a name as a scalar that stands for itself. -/
def registerScalar (s : Session) (name : String) : Session :=
  s.insert (.freeScalar name s.defaultDimension)

/-- Name the coordinates; those not yet known are scalars. -/
def setCoordinates (s : Session) (names : List String) : Session :=
  let s := names.foldl (fun s name =>
    if s.table.contains name then s else s.registerScalar name) s
  { s with coordinates := names }

def warn (s : Session) (w : Warning) : Session :=
  if s.config.warnOnOverride then { s with warnings := s.warnings ++ [w] } else s

def undeclared (s : Session) (name : String) (span : Span) : Error where
  cause := .undeclared name (closeNames s.table.order name)
  span := span

/-- The value of a scalar, which is registered if it is new. -/
def scalar (s : Session) (name : String) : Expr × Session :=
  if name == "pi" then (.sym name, s)
  else
    match s.table.get? name with
    | some e => (if e.rank = 0 then e.value.get [] else .sym name, s)
    | none => (.sym name, s.registerScalar name)

/-- The first tensor that differs from a reference in the heights of its indices only. -/
def sibling? (s : Session) (t : TensorHead) : Option Entry :=
  if !t.hasConventionalName || t.rank = 0 then none
  else s.table.listed.find? fun e => e.base == t.base && e.rank == t.rank && e.name != t.name

def dimensions (s : Session) : Dimensions where
  ofTensor t :=
    match s.table.get? t.name with
    | some e =>
      if e.rank = t.rank ∧ 0 < e.rank then some e.dimension else (s.sibling? t).map (·.dimension)
    | none => (s.sibling? t).map (·.dimension)
  ofCoordinates := if s.coordinates.isEmpty then none else some s.coordinates.length
  default := s.defaultDimension

end Session

end TensorCalculus
